import Qau.VerkleRefine

/-!
# The simulation of `insert`

Under `Matches` and `Reads`, one call of `insert` is `Radix.upsert`
(`insert_spec`). The two splits of the source, of a leaf and of an
extension, build the same fork; `built_fork` accounts for its nodes once.
-/

namespace Qau

open Function Radix VerkleTree StemTree

variable {x y : UInt8} {c key value : Bytes}
  {stem : Stem} {pre p s : Bytes} {t : VerkleTree} {n : TreeNode} {u : StemTree}

/-! ## Stems and positions -/

theorem commonLen_fork (hxy : x ≠ y) (r p : Bytes) :
    ∀ c : Bytes, commonLen (c ++ x :: r) (c ++ y :: p) = c.length
  | [] => by simp [commonLen, hxy]
  | z :: c => by simp [commonLen, commonLen_fork hxy r p c]

theorem getElem?_length_append (pre : Bytes) (i : UInt8) (p : Bytes) :
    (pre ++ i :: p)[pre.length]? = some i := by simp

theorem take_drop_fork (c : Bytes) (x : UInt8) (s : Bytes) :
    (c ++ x :: s).drop (c.length + 1) = s := by
  rw [List.drop_length_add_append]
  rfl

theorem drop_stem (h : stem.toList = pre ++ p) : stem.toList.drop pre.length = p := by
  rw [h, List.drop_left' rfl]

theorem getElem?_stem_fork (h : stem.toList = pre ++ (c ++ y :: p)) :
    stem.toList[pre.length + c.length]? = some y := by
  rw [h, ← List.append_assoc, ← List.length_append]
  exact getElem?_length_append ..

/-- The leaf `insert` writes, from the leaf it found. -/
def putLeaf (key value : Bytes) : Option LeafNode → LeafNode
  | none => newLeafNode key value
  | some n => n.insertEntry key value

section
variable {sha3 : Bytes → Hash} {pdb : Kv}

/-! ## Descents -/

/-- A call in the middle of a descent along `stem`: the node stands for `T`
and the store for what is below it, `pre` of the stem is behind and `p`
ahead, and the fuel is enough. -/
structure Descends (sha3 : Bytes → Hash) (pdb : Kv) (t : VerkleTree) (stem : Stem) (T : StemTree)
    (fuel : Nat) (n : TreeNode) (pre p : Bytes) : Prop where
  node : Matches sha3 n T
  wf : Radix.WF p.length T
  reads : Reads sha3 pdb t T
  stem : stem.toList = pre ++ p
  fuel : p.length < fuel

/-- A descent at an extension. -/
structure AtRun (sha3 : Bytes → Hash) (pdb : Kv) (t : VerkleTree) (stem : Stem) (s : Bytes)
    (u : StemTree) (n : TreeNode) (pre p : Bytes) : Prop where
  node : Matches sha3 n (.run s u)
  wf : Radix.WF p.length (.run s u)
  reads : Reads sha3 pdb t (.run s u)
  stem : stem.toList = pre ++ p

section
variable {t : VerkleTree} {stem : Stem} {s pre p : Bytes} {u : StemTree} {n : TreeNode}

section
variable (h : AtRun sha3 pdb t stem s u n pre p)
include h

theorem AtRun.ne_nil : s ≠ [] := h.wf.1

theorem AtRun.ne_empty : u ≠ .empty := by
  rintro rfl
  exact h.wf.2.1

theorem AtRun.length_le : s.length ≤ p.length ∧ p.length ≤ 31 := by
  obtain ⟨-, -, k, hk, -⟩ := h.wf
  have := congrArg List.length h.stem
  simp only [List.Vector.toList_length, List.length_append] at this
  omega

theorem AtRun.guard : ¬ (s.length = 0 ∨ StemSize < s.length) := by
  have hpos : s.length ≠ 0 := by simpa using h.ne_nil
  have := h.length_le
  simp only [StemSize]
  omega

theorem AtRun.take : (copyInto 31 s).toList.take s.length = s :=
  take_copyInto (h.length_le.1.trans h.length_le.2)

theorem AtRun.child : t.extensionChild pdb n = some (nodeOf sha3 u) :=
  extensionChild_spec h.node h.reads h.ne_empty

theorem AtRun.getElem? : ∃ i, stem.toList[pre.length]? = some i := by
  cases p with
  | nil =>
    have hlen := h.length_le.1
    exact absurd (List.length_eq_zero_iff.mp (Nat.le_zero.mp hlen)) h.ne_nil
  | cons i p => exact ⟨i, by rw [h.stem]; exact getElem?_length_append ..⟩

end

/-- Induction along a descent. At an internal node the slot is free or the
descent goes on in the child; at an extension the stem follows the run or
leaves it. -/
theorem Descends.rule {motive : ∀ T fuel n pre p, Descends sha3 pdb t stem T fuel n pre p → Prop}
    (leaf : ∀ r n fuel pre p h, motive (.leaf r n) (fuel + 1) (.leaf n) pre p h)
    (slot : ∀ c fuel pre i p h, stem.toList[pre.length]? = some i → c i = .empty →
      t.getNode pdb (hash sha3 (c i)) = none →
      motive (.node c) (fuel + 1) (.internal fun j => hash sha3 (c j)) pre (i :: p) h)
    (child : ∀ c fuel pre i p h h', stem.toList[pre.length]? = some i → c i ≠ .empty →
      t.getNode pdb (hash sha3 (c i)) = some (nodeOf sha3 (c i)) →
      motive (c i) fuel (nodeOf sha3 (c i)) (pre ++ [i]) p h' →
      motive (.node c) (fuel + 1) (.internal fun j => hash sha3 (c j)) pre (i :: p) h)
    (run : ∀ s u fuel n pre q h h', AtRun sha3 pdb t stem s u n pre (s ++ q) →
      s <+: stem.toList.drop pre.length → motive u fuel (nodeOf sha3 u) (pre ++ s) q h' →
      motive (.run s u) (fuel + 1) n pre (s ++ q) h)
    (leave : ∀ s u fuel n pre p h, AtRun sha3 pdb t stem s u n pre p →
      ¬ s <+: stem.toList.drop pre.length → strip s p = none →
      motive (.run s u) (fuel + 1) n pre p h) {T : StemTree} {fuel : Nat} {n : TreeNode}
    {pre p : Bytes} (h : Descends sha3 pdb t stem T fuel n pre p) : motive T fuel n pre p h := by
  obtain ⟨fuel, rfl⟩ : ∃ k, fuel = k + 1 := ⟨fuel - 1, by have := h.fuel; omega⟩
  induction T generalizing fuel n pre p with
  | empty => cases h.node
  | leaf r n =>
    obtain ⟨hm, -, -, -, -⟩ := id h
    cases hm
    exact leaf r n fuel pre p h
  | node c ih =>
    obtain ⟨hm, ⟨k, hk, hc, -⟩, hr, hstem, hfuel⟩ := id h
    cases hm
    cases p with
    | nil => simp at hk
    | cons i p =>
      have hp : p.length = k := by simpa using hk
      have hidx : stem.toList[pre.length]? = some i := by
        rw [hstem]; exact getElem?_length_append ..
      by_cases hci : c i = .empty
      · refine slot c fuel pre i p h hidx hci ?_
        rw [hci, getNode]
        exact if_pos rfl
      · obtain ⟨fuel, rfl⟩ : ∃ k, fuel = k + 1 := ⟨fuel - 1, by simp at hfuel; omega⟩
        have h' : Descends sha3 pdb t stem (c i) (fuel + 1) (nodeOf sha3 (c i)) (pre ++ [i]) p :=
          ⟨matches_nodeOf hci, hp ▸ hc i, hr.child i, by simpa using hstem,
            by simpa using hfuel⟩
        exact child c _ pre i p h h' hidx hci (hr (c i) (.inr ⟨i, mem_subs_self hci⟩))
          (ih i fuel h')
  | run s u ih =>
    have hrun : AtRun sha3 pdb t stem s u n pre p := ⟨h.node, h.wf, h.reads, h.stem⟩
    have hdrop := drop_stem h.stem
    cases hstrip : strip s p with
    | some q =>
      obtain rfl := strip_eq_some.mp hstrip
      obtain ⟨-, -, k, hk, hu⟩ := h.wf
      have hq : q.length = k := by simpa using hk
      have hspos := List.length_pos_iff.mpr hrun.ne_nil
      have hfuel := h.fuel
      rw [List.length_append] at hfuel
      obtain ⟨fuel, rfl⟩ : ∃ k, fuel = k + 1 := ⟨fuel - 1, by omega⟩
      have h' : Descends sha3 pdb t stem u (fuel + 1) (nodeOf sha3 u) (pre ++ s) q :=
        ⟨matches_nodeOf hrun.ne_empty, hq ▸ hu, h.reads.behind, by simpa using h.stem,
          by omega⟩
      exact run s u _ n pre q h h' hrun (hdrop ▸ List.prefix_append ..) (ih fuel h')
    | none =>
      refine leave s u fuel n pre p h hrun ?_ hstrip
      rw [hdrop]
      rintro ⟨q, rfl⟩
      simp at hstrip

end

/-! ## The splits -/

/-- The fork both splits build: two subtrees under a new internal node,
behind a run when they share bytes. -/
theorem built_fork (T : StemTree) (n : TreeNode) (c : Bytes) (hxy : x ≠ y) {a b : StemTree}
    (na nb : TreeNode) (hna : Top sha3 na a) (hnb : Top sha3 nb b) (hla : na.Loaded)
    (hlb : nb.Loaded) (hsubs : ∀ u ∈ subs a, u = a ∨ u ∈ subs T) (hb : ∀ u ∈ subs b, u = b)
    (internal : TreeNode) (hint : internal = .internal (update
      (update (fun _ => zeroHash) x (na.hash sha3)) y (nb.hash sha3))) (ext : TreeNode)
    (hext : ext = .extension (copyInto 31 c) c.length internal) (L : List TreeNode)
    (hL : ∀ m ∈ L, m = na ∨ m = nb) (hLa : na ∈ L) (hLb : nb ∈ L) :
    Built sha3 T (wrap c (branch x a y b)) n (if c = [] then internal else ext)
      (L ++ (if c = [] then [internal] else [internal, ext])) := by
  have heq : internal = nodeOf sha3 (branch x a y b) := by
    have hfun : (fun i => hash sha3 (update
        (update (fun _ => empty) x a) y b i)) =
        update (update (fun _ => zeroHash) x (na.hash sha3)) y
          (nb.hash sha3) := by
      funext i
      by_cases hy : i = y
      · subst hy; simp [hnb.hash_eq]
      · by_cases hx : i = x
        · subst hx; simp [hy, hna.hash_eq]
        · simp [hx, hy]; rfl
    rw [hint, ← hfun]
    rfl
  have hti : Top sha3 internal (branch x a y b) := heq ▸ top_nodeOf fun h => nomatch h
  have hbranch : ∀ u ∈ subs (branch x a y b),
      u = branch x a y b ∨ u = a ∨ u = b ∨ u ∈ subs T := by
    rintro u (rfl | ⟨i, hi⟩)
    · exact .inl rfl
    · by_cases hy : i = y
      · subst hy
        rw [update_self] at hi
        exact .inr (.inr (.inl (hb u hi)))
      · rw [update_of_ne hy] at hi
        by_cases hx : i = x
        · subst hx
          rw [update_self] at hi
          rcases hsubs u hi with h | h
          · exact .inr (.inl h)
          · exact .inr (.inr (.inr h))
        · rw [update_of_ne hx] at hi
          exact hi.elim
  have hma : a ∈ subs (branch x a y b) :=
    .inr ⟨x, by simpa [update_of_ne hxy] using mem_subs_self hna.1⟩
  have hmb : b ∈ subs (branch x a y b) :=
    .inr ⟨y, by simpa using mem_subs_self hnb.1⟩
  have hw : Wrote sha3 T (branch x a y b) (L ++ [internal]) := by
    constructor
    · intro m hm
      rcases List.mem_append.mp hm with h | h
      · rcases hL m h with rfl | rfl
        · exact ⟨hla, .inl ⟨a, hma, hna⟩⟩
        · exact ⟨hlb, .inl ⟨b, hmb, hnb⟩⟩
      · obtain rfl := List.mem_singleton.mp h
        exact ⟨by rw [hint]; trivial, .inl ⟨_, Set.mem_insert .., hti⟩⟩
    · intro u hu
      rcases hbranch u hu with rfl | rfl | rfl | h
      · exact .inr ⟨internal, by simp, hti⟩
      · exact .inr ⟨na, List.mem_append_left _ hLa, hna⟩
      · exact .inr ⟨nb, List.mem_append_left _ hLb, hnb⟩
      · exact .inl ⟨u, h, rfl⟩
  cases c with
  | nil => exact ⟨hw, hti, .inr ⟨by rw [if_pos rfl, hint]; trivial, heq ▸ .internal⟩⟩
  | cons z c =>
    have hne : z :: c ≠ [] := by simp
    have hrun := hw.run (s := z :: c) hti
    rw [List.append_assoc, ← hext] at hrun
    rw [if_neg hne, if_neg hne]
    refine ⟨hrun, hext ▸ top_extension hti _, .inr ⟨by rw [hext]; trivial, ?_⟩⟩
    rw [hext, heq]
    exact .extension

theorem splitLeaf_spec (t : VerkleTree) (n : LeafNode) (key value : Bytes) {r : Bytes} (hxy : x ≠ y)
    (hold : (keyToStem sha3 n.key).toList = pre ++ (c ++ x :: r))
    (hnew : stem.toList = pre ++ (c ++ y :: p)) :
    ∃ n' L, t.splitLeaf sha3 n stem key value pre.length = some (n', t.stores sha3 L) ∧
      Built sha3 (.leaf (c ++ x :: r) n)
        (wrap c (branch x (.leaf r n) y (.leaf p (newLeafNode key value))))
        (.leaf n) n' L := by
  have hdiv : commonLen ((keyToStem sha3 n.key).toList.drop pre.length)
      (stem.toList.drop pre.length) = c.length := by
    rw [drop_stem hold, drop_stem hnew, commonLen_fork hxy]
  have htake : (((keyToStem sha3 n.key).toList.drop pre.length).take c.length) = c := by
    rw [drop_stem hold, List.take_left' rfl]
  have hfork := built_fork (.leaf (c ++ x :: r) n) (.leaf n) c hxy
    (.leaf n) (.leaf (newLeafNode key value)) (top_leaf sha3 r n) (top_leaf sha3 p _) trivial trivial
    (fun u hu => .inl hu)
    (fun u hu => hu) _ rfl _ rfl
    [.leaf n, .leaf n, .leaf (newLeafNode key value), .leaf (newLeafNode key value)]
    (by simp) (by simp) (by simp)
  refine ⟨_, _, ?_, hfork⟩
  simp only [splitLeaf, hdiv, getElem?_stem_fork hold, getElem?_stem_fork hnew, htake]
  cases c with
  | nil => rfl
  | cons z c => rfl

theorem splitExtension_spec (hxy : x ≠ y) (hlen : (c ++ x :: s).length ≤ 31)
    (hm : Matches sha3 n (.run (c ++ x :: s) u)) (hr : Reads sha3 pdb t (.run (c ++ x :: s) u))
    (hnode : u.isNode) (hnew : stem.toList = pre ++ (c ++ y :: p)) :
    ∃ n' L, t.splitExtension sha3 pdb n (copyInto 31 (c ++ x :: s)) (c ++ x :: s).length stem
        key value pre.length = some (n', t.stores sha3 L) ∧
      Built sha3 (.run (c ++ x :: s) u)
        (wrap c (branch x (wrap s u) y (.leaf p (newLeafNode key value))))
        n n' L := by
  have hu : u ≠ .empty := by rintro rfl; exact hnode
  have hchild := extensionChild_spec hm hr hu
  have hstem := take_copyInto hlen
  have hdiv : commonLen (stem.toList.drop pre.length)
      ((copyInto 31 (c ++ x :: s)).toList.take (c ++ x :: s).length) = c.length := by
    rw [drop_stem hnew, hstem, commonLen_fork hxy.symm]
  have hold : (copyInto 31 (c ++ x :: s)).toList[c.length]? = some x := by
    rw [copyInto_toList_of_length_le hlen, List.append_assoc]
    exact getElem?_length_append ..
  have hpre : (copyInto 31 (c ++ x :: s)).toList.take c.length = c := by
    rw [copyInto_toList_of_length_le hlen, List.append_assoc, List.take_left' rfl]
  have hrest : ((copyInto 31 (c ++ x :: s)).toList.take (c ++ x :: s).length).drop (c.length + 1)
      = s := by
    rw [hstem, take_drop_fork]
  have hrem : (c ++ x :: s).length - c.length - 1 = s.length := by simp
  have hloaded : (nodeOf sha3 u).Loaded := by
    cases u with
    | node d => trivial
    | _ => exact hnode.elim
  cases s with
  | nil =>
    have hfork := built_fork (.run (c ++ [x]) u) n c hxy (nodeOf sha3 u)
      (.leaf (newLeafNode key value)) (top_nodeOf hu) (top_leaf sha3 p _) hloaded trivial (fun v hv => .inr (.inr hv))
      (fun v hv => hv) _ rfl _ rfl
      [nodeOf sha3 u, .leaf (newLeafNode key value), .leaf (newLeafNode key value)]
      (by simp) (by simp) (by simp)
    refine ⟨_, _, ?_, hfork⟩
    simp only [splitExtension, hdiv, getElem?_stem_fork hnew, hold, hchild, hrem,
      hpre]
    cases c <;> rfl
  | cons z s =>
    have hma : Top sha3 (.extension (copyInto 31 (z :: s)) (z :: s).length (nodeOf sha3 u))
        (.run (z :: s) u) := top_extension (top_nodeOf hu) _
    have hfork := built_fork (.run (c ++ x :: z :: s) u) n c hxy _
      (.leaf (newLeafNode key value)) hma (top_leaf sha3 p _) trivial trivial
      (fun v hv => hv.imp id .inr) (fun v hv => hv) _ rfl _ rfl
      [.extension (copyInto 31 (z :: s)) (z :: s).length (nodeOf sha3 u),
        .extension (copyInto 31 (z :: s)) (z :: s).length (nodeOf sha3 u),
        .leaf (newLeafNode key value), .leaf (newLeafNode key value)]
      (by simp) (by simp) (by simp)
    refine ⟨_, _, ?_, hfork⟩
    simp only [splitExtension, hdiv, getElem?_stem_fork hnew, hold, hchild, hrem,
      hpre, hrest]
    cases c <;> rfl

/-! ## The simulation of `insert` -/

theorem insert_none (fuel : Nat) (t : VerkleTree) (stem : Stem) (key value : Bytes)
    (depth : Nat) : t.insert sha3 pdb fuel none stem key value depth =
      some (.leaf (newLeafNode key value), t.stores sha3 [.leaf (newLeafNode key value)]) := by
  cases fuel <;> rfl

variable (sha3) in
theorem built_empty (p : Bytes) (n : LeafNode) (m : TreeNode) :
    Built sha3 .empty (.leaf p n) m (.leaf n) [.leaf n] :=
  ⟨wrote_leaf _ p n, top_leaf sha3 p n, .inr ⟨trivial, .leaf⟩⟩

/-- Both ways an extension is held in memory take the same branch. -/
theorem insert_extension (h : AtRun sha3 pdb t stem s u n pre p) (fuel : Nat) (key value : Bytes) :
    t.insert sha3 pdb (fuel + 1) (some n) stem key value pre.length =
      if s <+: stem.toList.drop pre.length then do
        let child := t.extensionChild pdb n
        let oldChildHash := (child.map (TreeNode.hash sha3)).getD zeroHash
        let (newChild, t) ← VerkleTree.insert sha3 pdb fuel t child stem key value
          (pre.length + s.length)
        if newChild.hash sha3 = oldChildHash then some (n, t)
        else
          let ext := TreeNode.extension (copyInto 31 s) s.length newChild
          some (ext, t.storeNode sha3 ext)
      else t.splitExtension sha3 pdb n (copyInto 31 s) s.length stem key value pre.length := by
  have hm := h.node
  cases hm <;> simp only [VerkleTree.insert, if_neg h.guard, h.take]

theorem insert_internal {c : UInt8 → StemTree} {i : UInt8} {T' : StemTree} {fuel depth : Nat}
    {n0 n' : TreeNode} {L : List TreeNode} (hidx : stem.toList[depth]? = some i)
    (heq : t.insert sha3 pdb fuel (t.getNode pdb (hash sha3 (c i))) stem key value
      (depth + 1) = some (n', t.stores sha3 L)) (hb : Built sha3 (c i) T' n0 n' L)
    (hload : n' = n0 → n'.Loaded ∨ n0.hash sha3 = hash sha3 (c i)) :
    ∃ m L', t.insert sha3 pdb (fuel + 1) (some (.internal fun j => hash sha3 (c j))) stem
        key value depth = some (m, t.stores sha3 L') ∧
      Built sha3 (.node c) (.node (update c i T'))
        (.internal fun j => hash sha3 (c j)) m L' := by
  by_cases hsame : n'.hash sha3 = hash sha3 (c i)
  · have hsame' := hb.top.hash_eq.symm.trans hsame
    refine ⟨_, L, ?_, ⟨hb.toWrote.node_same hsame', ?_, .inl rfl⟩⟩
    · simp only [VerkleTree.insert, hidx, heq, Option.bind_eq_bind, Option.bind_some,
        if_pos hsame]
    · refine ⟨fun h => (nomatch h), ?_⟩
      show TreeNode.internal _ = TreeNode.internal _
      rw [hash_update, hsame', update_eq_self]
  · have hloaded : n'.Loaded := by
      rcases hb.fresh with h | ⟨h, -⟩
      · exact (hload h).resolve_right fun h' => hsame (h ▸ h')
      · exact h
    have hw := hb.toWrote.node (K := [n']) fun m hm => by
      obtain rfl := List.mem_singleton.mp hm
      exact ⟨hloaded, hb.top⟩
    refine ⟨nodeOf sha3 (.node (update c i T')), _, ?_,
      ⟨hw, top_nodeOf fun h => (nomatch h), .inr ⟨trivial, .internal⟩⟩⟩
    simp only [VerkleTree.insert, hidx, heq, Option.bind_eq_bind, Option.bind_some,
      if_neg hsame, stores_append]
    simp only [VerkleTree.stores, List.foldl_cons, List.foldl_nil, nodeOf,
      hash_update, hb.top.hash_eq]

theorem insert_spec (key value : Bytes) (hkey : keyToStem sha3 key = stem) {T : StemTree}
    {fuel : Nat} (h : Descends sha3 pdb t stem T fuel n pre p) (hloc : Located sha3 pre T) :
    ∃ n' L, t.insert sha3 pdb fuel (some n) stem key value pre.length
        = some (n', t.stores sha3 L) ∧
      Built sha3 T (upsert (putLeaf key value) T p) n n' L := by
  induction h using Descends.rule with
  | leaf r n fuel pre p h =>
    have hn : (keyToStem sha3 n.key).toList = pre ++ r := hloc r n (by simp [find])
    have hiff : (n.key = key ∨ keyToStem sha3 n.key = stem) ↔ r = p := by
      constructor
      · intro hor
        have hst : keyToStem sha3 n.key = stem := by
          rcases hor with rfl | hst
          · exact hkey
          · exact hst
        rw [hst, h.stem] at hn
        exact (List.append_cancel_left hn).symm
      · rintro rfl
        exact .inr (List.Vector.eq _ _ (hn.trans h.stem.symm))
    by_cases hrp : r = p
    · subst hrp
      refine ⟨.leaf (n.insertEntry key value), [.leaf (n.insertEntry key value)], ?_, ?_⟩
      · simp only [VerkleTree.insert, if_pos (hiff.mpr rfl)]
        rfl
      · rw [upsert, if_pos rfl]
        exact ⟨wrote_leaf _ r _, top_leaf sha3 r _, .inr ⟨trivial, .leaf⟩⟩
    · obtain ⟨c, x, r', y, p', hxy, rfl, rfl⟩ := exists_fork_of_length h.wf hrp
      obtain ⟨n', L, heq, hb⟩ := splitLeaf_spec t n key value hxy hn h.stem
      refine ⟨n', L, ?_, ?_⟩
      · simp only [VerkleTree.insert, if_neg (fun h => hrp (hiff.mp h))]
        exact heq
      · rw [upsert_leaf_fork hxy]
        exact hb
  | slot c fuel pre i p h hidx hci hget =>
    have hb : Built sha3 (c i) (upsert (putLeaf key value) (c i) p)
        (.leaf (newLeafNode key value)) (.leaf (newLeafNode key value))
        [.leaf (newLeafNode key value)] := by
      rw [hci]
      exact built_empty sha3 ..
    exact insert_internal hidx (hget ▸ insert_none ..) hb fun _ => .inl trivial
  | child c fuel pre i p h h' hidx hci hget ih =>
    obtain ⟨n', L, heq, hb⟩ := ih (hloc.node i)
    rw [← hget, List.length_append] at heq
    exact insert_internal hidx heq hb fun _ => .inr (hash_nodeOf hci)
  | run s u fuel n pre q h h' hrun hpre ih =>
    obtain ⟨n', L, heq, hb⟩ := ih hloc.run
    have hu0 := hrun.ne_empty
    rw [insert_extension hrun, if_pos hpre, hrun.child]
    rw [List.length_append] at heq
    simp only [heq, Option.bind_eq_bind, Option.bind_some, Option.map_some,
      Option.getD_some, hash_nodeOf hu0, upsert_run_append]
    by_cases hsame : n'.hash sha3 = hash sha3 u
    · have hsame' := hb.top.hash_eq.symm.trans hsame
      rw [if_pos hsame]
      refine ⟨n, L, rfl, hb.toWrote.run_same hsame', ⟨by simp, ?_⟩, .inl rfl⟩
      rw [(h.node.top h.wf).2, nodeOf, nodeOf, hsame']
    · rw [if_neg hsame]
      have hn' := hb.top.eq_nodeOf (isNode_upsert h.wf.2.1 q)
      refine ⟨_, _, ?_, hb.toWrote.behind.run hb.top, top_extension hb.top s, .inr ⟨trivial, ?_⟩⟩
      · rw [stores_append]
        rfl
      · rw [hn']
        exact .extension
  | leave s u fuel n pre p h hrun hpre hstrip =>
    have hlen := hrun.length_le
    obtain ⟨c, x, s', y, p', hxy, rfl, rfl⟩ := exists_fork_of_strip hlen.1 hstrip
    rw [insert_extension hrun, if_neg hpre, upsert_run_fork hxy]
    exact splitExtension_spec hxy (hlen.1.trans hlen.2) h.node h.reads h.wf.2.1 h.stem

end

end Qau
