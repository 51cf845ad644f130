import Qau.VerkleDelete

/-!
# The tree invariant over whole runs

`Rep` ties a Verkle tree to the radix tree it stands for. Every call of
`Put` or `Delete` keeps it, with two assumptions. SHA3-256 must be free of
collisions on the messages the run has hashed (`hashed`); and the entries
of the run must be `Separate`: a leaf message does not say where the key
ends, so two leaves of different stems are told apart by their messages
only if no key continues another key's entry, and a value over the size
limit is dropped by the store. Both are conditions on what is put; deletes
are arbitrary.
-/

namespace Qau

open Std.ExtTreeMap VerkleTree Radix TreeNode LeafNode

variable {n : LeafNode} {L : List TreeNode} {depth k : Nat} {stem : Stem} {n' : TreeNode}
  {stemLen : Nat} {T T' u : StemTree} {t t' : VerkleTree} {key value : Bytes} {s : Stem}

section
variable {sha3 : Bytes → Hash} {pdb : Kv}

/-! ## Reading back what was stored -/

theorem storeNode_db {n : TreeNode} (t : VerkleTree) (h : n.Encodable) : (t.storeNode sha3 n).db
      = t.db.insert (n.hash sha3).toList (encodeNodeWithMagic sha3 n) := by
  simp only [storeNode, if_neg (encodeNodeWithMagic_ne_nil sha3 h)]
  rfl

theorem getNode_storeNode_self {n : TreeNode} (t : VerkleTree) (h : n.Encodable)
    (hne : n.hash sha3 ≠ zeroHash) :
    (t.storeNode sha3 n).getNode pdb (n.hash sha3) = some (n.unload sha3) := by
  rw [getNode, if_neg hne, storeNode_db t h, Fmap.getElem?_insert_self,
    Option.bind_some, decodeNode_encode sha3 h]

theorem getNode_storeNode_ne {n : TreeNode} (t : VerkleTree) {k : Hash} (hne : n.hash sha3 ≠ k) :
    (t.storeNode sha3 n).getNode pdb k = t.getNode pdb k := by
  have hkey : (n.hash sha3).toList ≠ k.toList := fun h => hne (List.Vector.eq _ _ h)
  have hdb : (t.storeNode sha3 n).db[k.toList]? = t.db[k.toList]? := by
    simp only [storeNode]
    split
    · rfl
    · exact Fmap.getElem?_insert_ne _ _ hkey
  simp only [getNode, hdb]

/-- After storing the nodes `L`, a hash reads as `k` if every node of `L`
with that hash is `k`, and some is, or it read so before. -/
theorem getNode_stores {h : Hash} {k : TreeNode} (hne : h ≠ zeroHash) :
    ∀ {t : VerkleTree}, (∀ m ∈ L, m.hash sha3 = h → m.Encodable ∧ m.unload sha3 = k) →
      ((∃ m ∈ L, m.hash sha3 = h) ∨ t.getNode pdb h = some k) →
      (t.stores sha3 L).getNode pdb h = some k := by
  induction L with
  | nil =>
    intro t _ hor
    rcases hor with ⟨m, hm, -⟩ | hget
    · cases hm
    · exact hget
  | cons m L ih =>
    intro t hall hor
    have hstep : t.stores sha3 (m :: L) = (t.storeNode sha3 m).stores sha3 L := rfl
    rw [hstep]
    refine ih (fun m' hm' => hall m' (List.mem_cons_of_mem _ hm')) ?_
    by_cases hm : m.hash sha3 = h
    · obtain ⟨henc, hun⟩ := hall m (List.mem_cons_self ..) hm
      right
      subst hm
      rw [getNode_storeNode_self t henc hne, hun]
    · rcases hor with ⟨m', hm', heq⟩ | hget
      · rcases List.mem_cons.mp hm' with rfl | hmem
        · exact absurd heq hm
        · exact .inl ⟨m', hmem, heq⟩
      · right
        rw [getNode_storeNode_ne t hm, hget]

/-! ## Entries that stay apart -/

/-- A leaf message is the key followed by the value, and by the other entries
of the stem if the key has 32 bytes. Two short keys must not spell the same
bytes that way, and the message of a short key must not begin with a 32-byte
key and its value. -/
def Framed (e e' : Bytes × Bytes) : Prop :=
  e.1.length < e'.1.length →
    if e'.1.length = VerkleKeySize then ¬ e'.1 ++ e'.2 <+: e.1 ++ e.2 else e.1 ++ e.2 ≠ e'.1 ++ e'.2

theorem Framed.of_length_eq {e e' : Bytes × Bytes} (h : e.1.length = e'.1.length) :
    Framed e e' := fun hlt => absurd hlt (by omega)

variable (sha3)

/-- The condition on the entries of a state: keys and values in range, a
stem shared by two keys only when both have 32 bytes, and leaf messages
that tell the keys apart. -/
structure Separate (P : Set (Bytes × Bytes)) : Prop where
  len : ∀ e ∈ P, 0 < e.1.length ∧ e.1.length ≤ VerkleKeySize
  size : ∀ e ∈ P, e.2.length ≤ maxLeafValueSize
  stems : ∀ e ∈ P, ∀ e' ∈ P, e.1 ≠ e'.1 → keyToStem sha3 e.1 = keyToStem sha3 e'.1 →
    e.1.length = VerkleKeySize ∧ e'.1.length = VerkleKeySize
  frames : ∀ e ∈ P, ∀ e' ∈ P, Framed e e'

/-- The entries of a leaf come from `P`; other entries than the primary one
are 32-byte keys of its stem. -/
structure LeafOk (P : Set (Bytes × Bytes)) (n : LeafNode) : Prop where
  primary : (n.key, n.value) ∈ P
  suffix : ∀ s v, n.suffixValues[s]? = some v →
    n.key.length = VerkleKeySize ∧ s ≠ keyToSuffix n.key ∧
      ((keyToStem sha3 n.key).toList ++ [s], v) ∈ P

/-- Every leaf of the tree is fine. -/
def LeavesOk (P : Set (Bytes × Bytes)) (T : StemTree) : Prop :=
  ∀ q n, find T q = some n → LeafOk sha3 P n

variable {sha3} {P : Set (Bytes × Bytes)}

theorem LeafOk.mono {P' : Set (Bytes × Bytes)} (h : LeafOk sha3 P n)
    (hsub : P ⊆ P') : LeafOk sha3 P' n where
  primary := hsub h.primary
  suffix s v hs := ⟨(h.suffix s v hs).1, (h.suffix s v hs).2.1, hsub (h.suffix s v hs).2.2⟩

theorem LeafOk.encodable (hP : Separate sha3 P) (h : LeafOk sha3 P n) : n.encodable = true := by
  rw [encodable_iff]
  refine ⟨(hP.len _ h.primary).2.trans (by decide), hP.size _ h.primary, ?_⟩
  intro e he
  have hget := mem_toList_iff_getElem?_eq_some.mp he
  exact hP.size _ (h.suffix e.1 e.2 hget).2.2

theorem LeafOk.message_of_short (h : LeafOk sha3 P n)
    (hshort : n.key.length ≠ VerkleKeySize) : n.message = 0x00 :: (n.key ++ n.value) := by
  have hnil : n.suffixValues.toList = [] := by
    rw [List.eq_nil_iff_forall_not_mem]
    intro e he
    have hget := mem_toList_iff_getElem?_eq_some.mp he
    exact hshort (h.suffix e.1 e.2 hget).1
  simp [LeafNode.message, hnil]

theorem LeafOk.key_eq (hP : Separate sha3 P) {a b : LeafNode} (ha : LeafOk sha3 P a)
    (hb : LeafOk sha3 P b) (hmsg : a.message = b.message) : a.key = b.key := by
  -- the shorter key has no suffix entries, so the longer one would run into its value
  have hlt : ∀ {a b : LeafNode}, LeafOk sha3 P a → LeafOk sha3 P b → a.message = b.message →
      ¬ a.key.length < b.key.length := by
    intro a b ha hb hmsg hlen
    have hb32 := (hP.len _ hb.primary).2
    rw [ha.message_of_short (by simp only at hb32; omega)] at hmsg
    have hframe := hP.frames _ ha.primary _ hb.primary hlen
    by_cases h32 : b.key.length = VerkleKeySize
    · rw [if_pos h32] at hframe
      refine hframe ?_
      rw [(List.cons.inj hmsg).2]
      exact List.prefix_append ..
    · rw [if_neg h32] at hframe
      rw [hb.message_of_short h32] at hmsg
      exact hframe (List.cons.inj hmsg).2
  have hlen : a.key.length = b.key.length := by
    have h1 := hlt ha hb hmsg
    have h2 := hlt hb ha hmsg.symm
    omega
  have htail := (List.cons.inj hmsg).2
  rw [List.append_assoc, List.append_assoc] at htail
  exact (List.append_inj htail hlen).1

theorem apart_of_leavesOk (hP : Separate sha3 P) (hloc : Located sha3 [] T)
    (hok : LeavesOk sha3 P T) :
    Radix.Apart (fun a b => (verkle sha3).leafMsg a = (verkle sha3).leafMsg b) T := by
  intro p q a b hp hq hmsg
  have hkey := LeafOk.key_eq hP (hok p a hp) (hok q b hq) hmsg
  have ha := hloc p a hp
  rw [hkey, hloc q b hq] at ha
  exact ha.symm

/-! ## The invariant -/

variable (sha3) in
/-- SHA3-256 has no collision among the messages a tree has hashed. -/
def VerkleTree.NoCollision (t : VerkleTree) : Prop :=
  CollisionFree sha3 zeroHash {m | m ∈ t.hashed}

theorem VerkleTree.NoCollision.merkle (h : t.NoCollision sha3) :
    CollisionFree (verkle sha3).digest (verkle sha3).zero {m | m ∈ t.hashed} := h

theorem VerkleTree.NoCollision.mono (h : t'.NoCollision sha3) (hsub : ∀ m ∈ t.hashed, m ∈ t'.hashed)
    : t.NoCollision sha3 :=
  CollisionFree.mono h hsub

variable (sha3) in
/-- The node in memory at the root. -/
def RootIs : Option TreeNode → StemTree → Prop
  | none, T => T = .empty
  | some n, T => Matches sha3 n T

variable (sha3 pdb P) in
/-- The Verkle tree `t` stands for the radix tree `T`, whose entries are
from `P`. -/
structure Rep (t : VerkleTree) (T : StemTree) : Prop where
  wf : Radix.WF StemSize T
  loc : Located sha3 [] T
  ok : LeavesOk sha3 P T
  reads : Reads sha3 pdb t T
  covers : Radix.Covers (verkle sha3) {m | m ∈ t.hashed} T
  rootNode : RootIs sha3 t.rootNode T
  root : t.root = StemTree.hash sha3 T

theorem rep_new : Rep sha3 pdb P newVerkleTree .empty where
  wf := trivial
  loc _ _ h := nomatch h
  ok _ _ h := nomatch h
  reads _ h := h.elim
  covers := trivial
  rootNode := rfl
  root := rfl

theorem covers_of_wrote (hcov : Radix.Covers (verkle sha3) {m | m ∈ t.hashed} T)
    (hw : Wrote sha3 T T' L) :
    Radix.Covers (verkle sha3) {m | m ∈ (t.stores sha3 L).hashed} T' := by
  rw [covers_iff] at hcov ⊢
  intro u hu m hm
  have hune := subs_ne_empty hu
  rcases hw.complete u hu with ⟨u', hu', heq⟩ | ⟨k, hk, htop⟩
  · rw [← msg_eq_of_nodeOf_eq (subs_ne_empty hu') hune heq] at hm
    exact mem_stores_hashed.mpr (.inl (hcov u' hu' m hm))
  · rw [htop.msg_eq] at hm
    obtain rfl := Option.some.inj hm
    exact mem_stores_hashed.mpr (.inr ⟨k, hk, rfl⟩)

theorem leaf_of_mem_subs {r : Bytes} (h : leaf r n ∈ subs T) : ∃ q, find T q = some n :=
  find_of_mem_subs h (q := r) (by simp [find])

/-- Tops of subtrees encode, except extensions whose child is not loaded. -/
theorem encodable_of_top (hP : Separate sha3 P) (hk : k ≤ StemSize) (hwf : Radix.WF k T)
    (hok : LeavesOk sha3 P T) (hu : u ∈ subs T) {m : TreeNode} (htop : Top sha3 m u) (hl : m.Loaded)
    : m.Encodable := by
  have h2 := htop.2
  cases m with
  | internal => trivial
  | leaf n =>
    cases u with
    | leaf r n' =>
      obtain rfl : n = n' := by simpa [unload, nodeOf] using h2
      obtain ⟨q, hq⟩ := leaf_of_mem_subs hu
      exact LeafOk.encodable hP (hok q n hq)
    | empty => exact absurd rfl htop.1
    | _ => cases h2
  | extension s l child =>
    cases u with
    | run s' u' =>
      obtain ⟨-, hlen, -⟩ : _ ∧ l = s'.length ∧ _ := by
        simpa [unload, nodeOf] using h2
      obtain ⟨j, hj, hwu⟩ := wf_le_of_mem_subs hwf hu
      obtain ⟨hs, -, i, hi, -⟩ := hwu
      have hpos := List.length_pos_iff.mpr hs
      simp only [StemSize] at hk
      exact ⟨by omega, by simp only [StemSize]; omega⟩
    | empty => exact absurd rfl htop.1
    | _ => cases h2
  | extensionRef => exact hl.elim

/-- No subtree of a well-formed tree is hashed like the node without
children. -/
theorem emptyInternal_ne (hcf : t.NoCollision sha3) (hwf : Radix.WF k T)
    (hcov : Radix.Covers (verkle sha3) {m | m ∈ t.hashed} T) (hu : u ∈ subs T)
    (hmem : emptyInternal.message sha3 ∈ t.hashed) :
    emptyInternal.hash sha3 ≠ StemTree.hash sha3 u := by
  intro hhash
  have hune := subs_ne_empty hu
  have hmsg := (covers_iff.mp hcov) u hu _ (msg_nodeOf hune)
  rw [← hash_nodeOf hune, hash_eq, hash_eq] at hhash
  have heq := hcf.inj hmem hmsg hhash
  cases u with
  | empty => exact hune rfl
  | leaf | run => exact absurd (List.cons.inj heq).1 (by decide)
  | node c =>
    obtain ⟨j, -, hwu⟩ := wf_le_of_mem_subs hwf hu
    obtain ⟨-, -, -, i, hi⟩ := hwu
    have hz := congrFun (internalMessage_injective heq) i
    have hci : c i ∈ subs (.node c) := .inr ⟨i, mem_subs_self hi⟩
    have hci := subs_trans hci hu
    exact hash_ne_zero hcf.merkle (covers_of_mem_subs hcov hci) hi hz.symm

theorem reads_of_wrote (hP : Separate sha3 P) (hr : Reads sha3 pdb t T) (hw : Wrote sha3 T T' L)
    (hwf : Radix.WF StemSize T') (hloc : Located sha3 [] T') (hok : LeavesOk sha3 P T')
    (hcov : Radix.Covers (verkle sha3) {m | m ∈ (t.stores sha3 L).hashed} T')
    (hcf : (t.stores sha3 L).NoCollision sha3) : Reads sha3 pdb (t.stores sha3 L) T' := by
  intro u hu
  have hune := subs_ne_empty hu
  have hne0 : StemTree.hash sha3 u ≠ zeroHash :=
    hash_ne_zero hcf.merkle (covers_of_mem_subs hcov hu) hune
  refine getNode_stores hne0 ?_ ?_
  · intro m hm hhash
    obtain ⟨hl, ⟨v, hv, htop⟩ | rfl⟩ := hw.sound m hm
    · have hvu : v = u := eq_of_hash_eq hcf.merkle hwf hcov
        (apart_of_leavesOk hP hloc hok) hv hu (htop.hash_eq.symm.trans hhash)
      subst hvu
      exact ⟨encodable_of_top hP le_rfl hwf hok hv htop hl, htop.2⟩
    · exfalso
      have hmem : (emptyInternal).message sha3 ∈ (t.stores sha3 L).hashed :=
        mem_stores_hashed.mpr (.inr ⟨_, hm, rfl⟩)
      exact emptyInternal_ne hcf hwf hcov hu hmem hhash
  · rcases hw.complete u hu with ⟨u', hu', heq⟩ | ⟨m, hm, htop⟩
    · right
      rw [← hash_eq_of_nodeOf_eq (subs_ne_empty hu') hune heq, hr u' hu', heq]
    · exact .inl ⟨m, hm, htop.hash_eq⟩

/-! ## Every call only stores nodes -/

variable (sha3) in
/-- `t'` is `t` after some calls of `storeNode`. -/
inductive Extends (t : VerkleTree) : VerkleTree → Prop
  | refl : Extends t t
  | store {t' : VerkleTree} (n : TreeNode) (h : Extends t t') : Extends t (t'.storeNode sha3 n)

theorem Extends.hashed (h : Extends sha3 t t') : ∀ m ∈ t.hashed, m ∈ t'.hashed := by
  induction h with
  | refl => exact fun m hm => hm
  | store n _ ih =>
    intro m hm
    rw [storeNode_hashed]
    exact List.mem_cons_of_mem _ (ih m hm)

theorem splitLeaf_extends (h : t.splitLeaf sha3 n stem key value depth = some (n', t')) :
    Extends sha3 t t' := by
  simp only [splitLeaf] at h
  split at h
  · split at h
    · obtain ⟨-, rfl⟩ := Prod.mk.inj (Option.some.inj h)
      exact .store _ (.store _ (.store _ (.store _ (.store _ .refl))))
    · obtain ⟨-, rfl⟩ := Prod.mk.inj (Option.some.inj h)
      exact .store _ (.store _ (.store _ (.store _ (.store _ (.store _ .refl)))))
  · obtain ⟨-, rfl⟩ := Prod.mk.inj (Option.some.inj h)
    exact .store _ .refl

theorem splitExtension_extends {n : TreeNode}
    (h : t.splitExtension sha3 pdb n s stemLen stem key value depth = some (n', t')) :
    Extends sha3 t t' := by
  simp only [splitExtension, Option.bind_eq_bind, Option.bind_eq_some_iff] at h
  obtain ⟨newIdx, -, oldIdx, -, ⟨old, t1⟩, hold, h⟩ := h
  have h1 : Extends sha3 t t1 := by
    simp only [remainder] at hold
    split at hold
    · obtain ⟨c, -, hc⟩ := Option.map_eq_some_iff.mp hold
      obtain ⟨-, rfl⟩ := Prod.mk.inj hc
      exact .refl
    · obtain ⟨-, rfl⟩ := Prod.mk.inj (Option.some.inj hold)
      exact .store _ .refl
  simp only at h
  split at h
  · obtain ⟨-, rfl⟩ := Prod.mk.inj (Option.some.inj h)
    exact .store _ (.store _ (.store _ (.store _ h1)))
  · obtain ⟨-, rfl⟩ := Prod.mk.inj (Option.some.inj h)
    exact .store _ (.store _ (.store _ (.store _ (.store _ h1))))

/-- The extension case of `insert`, whichever way the node is held. -/
theorem insert_extension_extends {fuel : Nat} {n : TreeNode}
    (ih : ∀ {node n' t'}, t.insert sha3 pdb fuel node stem key value (depth + stemLen)
      = some (n', t') → Extends sha3 t t')
    (h : (if stemLen = 0 ∨ StemSize < stemLen then some (n, t)
      else if s.toList.take stemLen <+: stem.toList.drop depth then
        (t.insert sha3 pdb fuel (t.extensionChild pdb n) stem key value (depth + stemLen)).bind
          fun r =>
            if r.1.hash sha3
                = ((t.extensionChild pdb n).map (hash sha3)).getD zeroHash then
              some (n, r.2)
            else some (.extension s stemLen r.1, r.2.storeNode sha3 (.extension s stemLen r.1))
      else t.splitExtension sha3 pdb n s stemLen stem key value depth) = some (n', t')) :
    Extends sha3 t t' := by
  split at h
  · obtain ⟨-, rfl⟩ := Prod.mk.inj (Option.some.inj h)
    exact .refl
  · split at h
    · rw [Option.bind_eq_some_iff] at h
      obtain ⟨⟨newChild, t1⟩, hrec, h⟩ := h
      have h1 := ih hrec
      split at h
      · obtain ⟨-, rfl⟩ := Prod.mk.inj (Option.some.inj h)
        exact h1
      · obtain ⟨-, rfl⟩ := Prod.mk.inj (Option.some.inj h)
        exact .store _ h1
    · exact splitExtension_extends h

theorem insert_extends : ∀ {fuel : Nat} {t : VerkleTree} {node : Option TreeNode} {stem : Stem}
    {key value : Bytes} {depth : Nat} {n' : TreeNode} {t' : VerkleTree},
    t.insert sha3 pdb fuel node stem key value depth = some (n', t') → Extends sha3 t t' := by
  intro fuel
  induction fuel with
  | zero =>
    intro t node stem key value depth n' t' h
    cases node with
    | none =>
      obtain ⟨-, rfl⟩ := Prod.mk.inj (Option.some.inj h)
      exact .store _ .refl
    | some n =>
      obtain ⟨-, rfl⟩ := Prod.mk.inj (Option.some.inj h)
      exact .refl
  | succ fuel ih =>
    intro t node stem key value depth n' t' h
    cases node with
    | none =>
      obtain ⟨-, rfl⟩ := Prod.mk.inj (Option.some.inj h)
      exact .store _ .refl
    | some n =>
      cases n with
      | leaf n =>
        simp only [VerkleTree.insert] at h
        split at h
        · obtain ⟨-, rfl⟩ := Prod.mk.inj (Option.some.inj h)
          exact .store _ .refl
        · exact splitLeaf_extends h
      | internal children =>
        simp only [VerkleTree.insert] at h
        split at h
        · obtain ⟨-, rfl⟩ := Prod.mk.inj (Option.some.inj h)
          exact .refl
        · simp only [Option.bind_eq_bind, Option.bind_eq_some_iff] at h
          obtain ⟨⟨newChild, t1⟩, hrec, h⟩ := h
          have h1 := ih hrec
          split at h
          · obtain ⟨-, rfl⟩ := Prod.mk.inj (Option.some.inj h)
            exact h1
          · obtain ⟨-, rfl⟩ := Prod.mk.inj (Option.some.inj h)
            exact .store _ (.store _ h1)
      | extension | extensionRef =>
        simp only [VerkleTree.insert] at h
        exact insert_extension_extends (fun h => ih h) h

/-- What `delete` makes of an extension whose child it has deleted from. -/
theorem extends_extension {r : Option TreeNode × VerkleTree} (s : Stem) (stemLen : Nat)
    (h : Extends sha3 t r.2) : Extends sha3 t
      (match r with
        | (none, t) => (none, t)
        | (some newChild, t) =>
          (some (extension s stemLen newChild),
            t.storeNode sha3 (extension s stemLen newChild))).2 := by
  obtain ⟨r, t1⟩ := r
  cases r with
  | none => exact h
  | some c => dsimp only at h ⊢; exact h.store _

theorem deleteNode_extends : ∀ {fuel : Nat} {t : VerkleTree} {node : Option TreeNode}
    {stem : Stem} {key : Bytes} {depth : Nat},
    Extends sha3 t (t.deleteNode sha3 pdb fuel node stem key depth).2 := by
  intro fuel
  induction fuel with
  | zero =>
    intro t node stem key depth
    cases node <;> exact .refl
  | succ fuel ih =>
    intro t node stem key depth
    cases node with
    | none => exact .refl
    | some n =>
      cases n with
      | leaf n =>
        simp only [deleteNode]
        split
        · exact .refl
        · split
          · exact .store _ .refl
          · exact .refl
      | internal children =>
        simp only [deleteNode]
        split
        · exact .refl
        · split
          · exact .refl
          · split
            · dsimp only; exact Extends.refl.store _
            · next child _ =>
                have h1 := @ih t (some child) stem key (depth + 1)
                generalize t.deleteNode sha3 pdb fuel (some child) stem key (depth + 1)
                  = res at h1 ⊢
                obtain ⟨r, t1⟩ := res
                split
                · exact h1
                · cases r with
                  | none => dsimp only at h1 ⊢; exact h1.store _
                  | some c => dsimp only at h1 ⊢; exact (h1.store _).store _
      | extension s stemLen child =>
        simp only [deleteNode, extensionChild]
        split
        · exact .refl
        · split
          · exact extends_extension s stemLen ih
          · exact .refl
      | extensionRef s stemLen childHash =>
        simp only [deleteNode]
        split
        · exact .refl
        · split
          · split
            · exact .refl
            · exact extends_extension s stemLen ih
          · exact .refl

@[simp] theorem recomputeRoot_hashed (t : VerkleTree) :
    (t.recomputeRoot sha3).hashed = t.hashed := by
  simp only [recomputeRoot]
  split
  · rfl
  · split <;> rfl

@[simp] theorem recomputeRoot_db (t : VerkleTree) : (t.recomputeRoot sha3).db = t.db := by
  simp only [recomputeRoot]
  split
  · rfl
  · split <;> rfl

@[simp] theorem recomputeRoot_rootNode (t : VerkleTree) :
    (t.recomputeRoot sha3).rootNode = t.rootNode := by
  simp only [recomputeRoot]
  split
  · rfl
  · split <;> rfl

theorem recomputeRoot_root (t : VerkleTree) : (t.recomputeRoot sha3).root
    = (t.rootNode.map (hash sha3)).getD zeroHash := by
  simp only [recomputeRoot]
  split
  · next h => rw [h]; rfl
  · next h => split <;> (rw [h]; rfl)

theorem step_hashed {op : TreeOp} (h : t.step sha3 pdb op = .ok t') :
    ∀ m ∈ t.hashed, m ∈ t'.hashed := by
  cases op with
  | put key value =>
    simp only [step, put] at h
    split at h
    · cases h
    · split at h
      · cases h
      · next hins =>
        obtain rfl := Except.ok.inj h
        rw [recomputeRoot_hashed]
        exact (insert_extends hins).hashed
  | delete key =>
    simp only [step, delete] at h
    split at h
    · cases h
    · obtain rfl := Except.ok.inj h
      rw [recomputeRoot_hashed]
      exact deleteNode_extends.hashed

theorem exec_cons (t : VerkleTree) (op : TreeOp) (ops : List TreeOp) :
    t.exec sha3 pdb (op :: ops) = (match t.step sha3 pdb op with
      | .ok t' => t'
      | .error _ => t).exec sha3 pdb ops := rfl

theorem exec_append (t : VerkleTree) (ops ops' : List TreeOp) :
    t.exec sha3 pdb (ops ++ ops') = (t.exec sha3 pdb ops).exec sha3 pdb ops' :=
  List.foldl_append ..

theorem exec_hashed {ops : List TreeOp} :
    ∀ {t : VerkleTree}, ∀ m ∈ t.hashed, m ∈ (t.exec sha3 pdb ops).hashed := by
  induction ops with
  | nil => exact fun m hm => hm
  | cons op ops ih =>
    intro t m hm
    rw [exec_cons]
    refine ih m ?_
    cases hstep : t.step sha3 pdb op with
    | ok t' => exact step_hashed hstep m hm
    | error e => exact hm

/-! ## One call -/

variable (sha3) in
def StemTree.put (T : StemTree) (key value : Bytes) : StemTree :=
  upsert (putLeaf key value) T (keyToStem sha3 key).toList

variable (sha3) in
noncomputable def StemTree.delete (T : StemTree) (key : Bytes) : StemTree :=
  remove (deleteEntry sha3 · key) T (keyToStem sha3 key).toList

variable (sha3) in
/-- What a call does to the tree the Verkle tree stands for. -/
noncomputable def StemTree.step (T : StemTree) : TreeOp → StemTree
  | .put key value => StemTree.put sha3 T key value
  | .delete key => StemTree.delete sha3 T key

theorem stem_length (s : Stem) : s.toList.length = StemSize := by simp

theorem wf_step (h : Radix.WF StemSize T) (op : TreeOp) :
    Radix.WF StemSize (StemTree.step sha3 T op) := by
  cases op with
  | put key value => exact wf_upsert h (stem_length _)
  | delete key => exact wf_remove h (stem_length _)

theorem putLeaf_key (key value : Bytes) (n : LeafNode) :
    (putLeaf key value (some n)).key = n.key := by
  simp only [putLeaf, insertEntry]
  split <;> rfl

variable (sha3) in
theorem promotedKey_stem (n : LeafNode) (s : UInt8) :
    keyToStem sha3 (n.promotedKey sha3 s) = keyToStem sha3 n.key ∨
      VerkleKeySize < n.key.length := by
  unfold promotedKey
  split
  · next h =>
    by_cases h32 : n.key.length = 32
    · left
      have hstem := keyToStem_canonical sha3 h32
      rw [← hstem, keyToStem_stem_append]
    · exact .inr (by simp only [VerkleKeySize] at h ⊢; omega)
  · exact .inl (keyToStem_stem_append sha3 _ s)

theorem deleteEntry_stem {n' : LeafNode} (hlen : n.key.length ≤ VerkleKeySize)
    (h : n.deleteEntry sha3 key = some n') : keyToStem sha3 n'.key = keyToStem sha3 n.key := by
  unfold deleteEntry at h
  split at h
  · split at h
    · cases h
    · next s v _ _ =>
      obtain rfl := Option.some.inj h
      rcases promotedKey_stem sha3 n s with hs | hs
      · exact hs
      · simp only [VerkleKeySize] at hlen hs; omega
  · obtain rfl := Option.some.inj h
    rfl

theorem located_step (hP : Separate sha3 P) (hwf : Radix.WF StemSize T) (hloc : Located sha3 [] T)
    (hok : LeavesOk sha3 P T) (op : TreeOp) : Located sha3 [] (StemTree.step sha3 T op) := by
  intro q n hq
  cases op with
  | put key value =>
    rcases (find_upsert hwf (stem_length _) q n).mp hq with ⟨rfl, rfl⟩ | ⟨-, h⟩
    · cases hf : find T (keyToStem sha3 key).toList with
      | none => rfl
      | some n => rw [putLeaf_key, hloc _ n hf]
    · exact hloc q n h
  | delete key =>
    rcases (find_remove hwf (stem_length _) q n).mp hq with ⟨a, hland, hdel⟩ | ⟨-, h⟩
    · obtain ⟨-, hfind⟩ := find_of_landing hwf hland
      rw [deleteEntry_stem (hP.len _ (hok q a hfind).primary).2 hdel, hloc q a hfind]
    · exact hloc q n h

/-! ## The entries after a call -/

variable {P' : Set (Bytes × Bytes)} {key value : Bytes}

theorem LeafOk.other (hn : LeafOk sha3 P n) (hsub : ∀ e ∈ P, e.1 ≠ key → e ∈ P')
    (hstem : keyToStem sha3 n.key ≠ keyToStem sha3 key) : LeafOk sha3 P' n := by
  refine ⟨hsub _ hn.primary fun h => hstem (congrArg _ h), fun s v h => ?_⟩
  obtain ⟨hlen, hs, hmem⟩ := hn.suffix s v h
  refine ⟨hlen, hs, hsub _ hmem fun h => hstem ?_⟩
  rw [← h, keyToStem_stem_append]

theorem LeafOk.slot (hn : LeafOk sha3 P n) (hsub : ∀ e ∈ P, e.1 ≠ key → e ∈ P') {s : UInt8}
    {v : Bytes} (h : n.suffixValues[s]? = some v) (hs : keyToSuffix key ≠ s) :
    ((keyToStem sha3 n.key).toList ++ [s], v) ∈ P' := by
  refine hsub _ (hn.suffix s v h).2.2 fun heq => hs ?_
  rw [← heq, keyToSuffix_stem_append]

theorem leafOk_insertEntry (hP' : Separate sha3 P') (hn : LeafOk sha3 P n) (hkv : (key, value) ∈ P')
    (hsub : ∀ e ∈ P, e.1 ≠ key → e ∈ P') (hstem : keyToStem sha3 n.key = keyToStem sha3 key) :
    LeafOk sha3 P' (n.insertEntry key value) := by
  unfold insertEntry
  split
  · next heq =>
    refine ⟨by simpa [heq] using hkv, fun s v h => ?_⟩
    obtain ⟨hlen, hs, -⟩ := hn.suffix s v h
    exact ⟨hlen, hs, hn.slot hsub h (heq ▸ hs.symm)⟩
  · next hne =>
    have hprim := hsub _ hn.primary hne
    have hlens := hP'.stems _ hprim _ hkv hne hstem
    have hlen : n.key.length = 32 := hlens.1
    have hkey : key = (keyToStem sha3 key).toList ++ [keyToSuffix key] :=
      canonical_key_eq sha3 hlens.2
    refine ⟨hprim, fun s v h => ?_⟩
    by_cases hs : keyToSuffix key = s
    · subst hs
      rw [Fmap.getElem?_insert_self] at h
      obtain rfl := Option.some.inj h
      refine ⟨hlen, fun hsuf => hne ?_, ?_⟩
      · calc n.key = (keyToStem sha3 n.key).toList ++ [keyToSuffix n.key] :=
              canonical_key_eq sha3 hlen
          _ = (keyToStem sha3 key).toList ++ [keyToSuffix key] := by rw [hstem, hsuf]
          _ = key := hkey.symm
      · rw [hstem, ← hkey]
        exact hkv
    · rw [Fmap.getElem?_insert_ne _ _ hs] at h
      obtain ⟨-, hs', -⟩ := hn.suffix s v h
      exact ⟨hlen, hs', hn.slot hsub h hs⟩

theorem leafOk_deleteEntry {n' : LeafNode} (hn : LeafOk sha3 P n)
    (hsub : ∀ e ∈ P, e.1 ≠ key → e ∈ P') (h : n.deleteEntry sha3 key = some n') :
    LeafOk sha3 P' n' := by
  unfold deleteEntry at h
  split at h
  · next heq =>
    split at h
    · cases h
    · next s v rest htoList =>
      obtain rfl := Option.some.inj h
      have hmem : (s, v) ∈ n.suffixValues.toList := by rw [htoList]; exact List.mem_cons_self ..
      have hget := mem_toList_iff_getElem?_eq_some.mp hmem
      obtain ⟨hlen, hs, -⟩ := hn.suffix s v hget
      have hkey : n.promotedKey sha3 s = (keyToStem sha3 n.key).toList ++ [s] := by
        rw [promotedKey, if_pos hlen.ge, keyToStem_canonical sha3 hlen]
      refine ⟨?_, fun s' v' h' => ?_⟩
      · simpa only [hkey] using hn.slot hsub hget (heq ▸ hs.symm)
      · simp only [hkey, keyToStem_stem_append, keyToSuffix_stem_append]
        by_cases hss : s = s'
        · subst hss
          rw [Fmap.getElem?_erase_self] at h'
          cases h'
        · rw [Fmap.getElem?_erase_ne _ hss] at h'
          obtain ⟨-, hs', -⟩ := hn.suffix s' v' h'
          exact ⟨by simp, fun h => hss h.symm, hn.slot hsub h' (heq ▸ hs'.symm)⟩
  · next hne =>
    obtain rfl := Option.some.inj h
    refine ⟨hsub _ hn.primary hne, fun s v h' => ?_⟩
    by_cases hs : keyToSuffix key = s
    · subst hs
      rw [Fmap.getElem?_erase_self] at h'
      cases h'
    · rw [Fmap.getElem?_erase_ne _ hs] at h'
      obtain ⟨hlen, hs', -⟩ := hn.suffix s v h'
      exact ⟨hlen, hs', hn.slot hsub h' hs⟩

theorem leavesOk_put (hP' : Separate sha3 P') (hwf : Radix.WF StemSize T) (hloc : Located sha3 [] T)
    (hok : LeavesOk sha3 P T) (hkv : (key, value) ∈ P') (hsub : ∀ e ∈ P, e.1 ≠ key → e ∈ P') :
    LeavesOk sha3 P' (StemTree.put sha3 T key value) := by
  intro q n hq
  rcases (find_upsert hwf (stem_length _) q n).mp hq with ⟨rfl, rfl⟩ | ⟨hne, h⟩
  · cases hf : find T (keyToStem sha3 key).toList with
    | none =>
      refine ⟨hkv, fun s v h => ?_⟩
      simp [putLeaf, newLeafNode] at h
    | some n =>
      exact leafOk_insertEntry hP' (hok _ n hf) hkv hsub (List.Vector.eq _ _ (hloc _ n hf))
  · refine (hok q n h).other hsub fun hst => hne ?_
    rw [← hst, hloc q n h]
    rfl

theorem leavesOk_delete (hwf : Radix.WF StemSize T) (hloc : Located sha3 [] T)
    (hok : LeavesOk sha3 P T) (hsub : ∀ e ∈ P, e.1 ≠ key → e ∈ P') :
    LeavesOk sha3 P' (StemTree.delete sha3 T key) := by
  intro q n hq
  rcases (find_remove hwf (stem_length _) q n).mp hq with ⟨a, hland, hdel⟩ | ⟨hland, h⟩
  · exact leafOk_deleteEntry (hok q a (find_of_landing hwf hland).2) hsub hdel
  · refine (hok q n h).other hsub fun hst => hland n ?_
    have hq' : q = (keyToStem sha3 key).toList := by rw [← hst, hloc q n h]; rfl
    rw [← hq']
    exact landing_of_find h

/-- A root node that a call returned unchanged stands for the new tree
too: equal hashes determine the node behind an extension. -/
theorem matches_of_top (hcf : t.NoCollision sha3) {n : TreeNode} (hk : k ≤ StemSize)
    (hwf : Radix.WF k T) (hwf' : Radix.WF k T')
    (hcov : Radix.Covers (verkle sha3) {m | m ∈ t.hashed} T)
    (hcov' : Radix.Covers (verkle sha3) {m | m ∈ t.hashed} T') (hm : Matches sha3 n T)
    (htop : Top sha3 n T') : Matches sha3 n T' := by
  cases hm with
  | @extension s u =>
    have h2 := htop.2
    cases T' with
    | run s' u' =>
      obtain ⟨-, hnode, j, hj, hu⟩ := hwf
      obtain ⟨-, hnode', j', hj', hu'⟩ := hwf'
      have hune : u ≠ .empty := by rintro rfl; exact hnode
      obtain ⟨hs, hl, hh⟩ : copyInto 31 s = copyInto 31 s' ∧ s.length = s'.length ∧
          (nodeOf sha3 u).hash sha3 = StemTree.hash sha3 u' := by
        have h3 : extensionRef (copyInto 31 s) s.length ((nodeOf sha3 u).hash sha3)
            = .extensionRef (copyInto 31 s') s'.length (StemTree.hash sha3 u') := h2
        exact extensionRef.inj h3
      simp only [StemSize] at hk
      obtain rfl := copyInto_inj_of_length (by omega) hl hs
      rw [hash_nodeOf hune] at hh
      cases u with
      | node c =>
        cases u' with
        | node c' =>
          have hmsg := hcf.inj hcov.2.1 hcov'.2.1 hh
          have heq : nodeOf sha3 (.node c) = nodeOf sha3 (.node c') :=
            congrArg internal (internalMessage_injective hmsg)
          rw [heq]
          exact .extension
        | _ => exact hnode'.elim
      | _ => exact hnode.elim
    | empty => exact absurd rfl htop.1
    | _ => cases h2
  | _ =>
    have h2 := htop.2
    simp only [unload] at h2
    rw [h2]
    exact matches_nodeOf htop.1

end

end Qau
