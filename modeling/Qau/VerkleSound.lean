import Qau.VerkleProof

/-!
# Soundness of Verkle proofs

A verified proof fixes the hashes along the path, but not everything the
verifier concludes from them: a sibling entry may sit in the slot of the
path itself, an extension hash does not cover the length of its stem, a
leaf hash does not cover where the key ends, and an entry found by its
suffix byte may belong to another stem. `Bound` says that these fields of
a proof are those of the tree, and a bound proof that verifies is right
(`honest_of_bound`). Without it there is a forged proof against every
tree that is not empty (`exists_forged`).
-/

namespace Qau

open VerkleProof StemTree

variable {key q : Bytes} {root : Hash} {stem : Stem} {T u : StemTree} {idx : UInt8}
  {children : UInt8 → Hash} {t : VerkleTree}
  {n : LeafNode} {p : VerkleProof} {pre value : Bytes} {P : Set (Bytes × Bytes)} {S : Set Bytes}

section
variable (sha3 : Bytes → Hash)

/-- A proof that says what `Get` says. -/
def VerkleProof.Honest (pdb : Kv) (t : VerkleTree) (p : VerkleProof) : Prop :=
  if p.isExclusion then t.get sha3 pdb p.key = .error .keyNotFound
  else t.get sha3 pdb p.key = .ok p.value

instance (pdb : Kv) (t : VerkleTree) (p : VerkleProof) : Decidable (p.Honest sha3 pdb t) :=
  inferInstanceAs (Decidable (if p.isExclusion = true then _ else _))

/-- The leaf a proof puts forward. -/
def VerkleProof.leaf (p : VerkleProof) : Option LeafNode :=
  if p.isExclusion then
    p.exclusionEvidence.bind fun ev =>
      if ev.type = .leafMismatch then decodeLeafNode ev.encodedLeaf else none
  else if p.inclusionLeaf = [] then some (newLeafNode p.key p.value)
  else decodeLeafNode p.inclusionLeaf

/-! ## What the verifier hashes -/

/-- The messages the verifier hashes level by level. -/
def levelMessages (stem : Stem) : Nat → List Hash → List (List SiblingWithIdx) →
    List ExtensionLevelData → List Bytes
  | depth, _ :: child :: path, lvl :: siblings, exts =>
    match extensionLevel exts with
    | some e => extensionMessage e.stem child ::
        levelMessages stem (depth + e.stemLen.toNat) (child :: path) siblings exts.tail
    | none =>
      match stem.toList[depth]? with
      | none => []
      | some idx => internalMessage (parentChildren child lvl idx) ::
          levelMessages stem (depth + 1) (child :: path) siblings exts.tail
  | _, _, _, _ => []

/-- All messages the verifier hashes. -/
def VerkleProof.messages (p : VerkleProof) : List Bytes :=
  levelMessages (keyToStem sha3 p.key) 0 p.path p.siblings p.extensionStems
    ++ p.leaf.toList.map LeafNode.message
    ++ (p.exclusionEvidence.toList.filter fun ev => ev.type = .extensionMismatch).map fun ev =>
        extensionMessage ev.extensionStem ev.extensionChild

/-! ## The fields the hashes do not bind -/

/-- At every level: the stem length of an extension is that of the node
with this hash, and no sibling sits in the slot of the path. -/
def LevelsBound (pdb : Kv) (t : VerkleTree) (stem : Stem) : Nat → List Hash →
    List (List SiblingWithIdx) → List ExtensionLevelData → Prop
  | depth, parent :: path, lvl :: siblings, exts =>
    match extensionLevel exts with
    | some e =>
      (∀ s l c, t.getNode pdb parent = some (.extensionRef s l c) → e.stemLen = l) ∧
        LevelsBound pdb t stem (depth + e.stemLen.toNat) path siblings exts.tail
    | none =>
      (∀ idx ∈ stem.toList[depth]?, ∀ sib ∈ lvl, sib.idx ≠ idx.toNat) ∧
        LevelsBound pdb t stem (depth + 1) path siblings exts.tail
  | _, _, _, _ => True

/-- The fields of a proof that no hash covers are those of the tree. -/
structure VerkleProof.Bound (pdb : Kv) (t : VerkleTree) (p : VerkleProof) : Prop where
  levels : LevelsBound pdb t (keyToStem sha3 p.key) 0 p.path p.siblings p.extensionStems
  leaf : ∀ n n', p.leaf = some n → (p.path.getLast?).bind (t.getNode pdb) = some (.leaf n') →
    n' = n
  stem : p.isExclusion = false → ∀ n, p.leaf = some n →
    keyToStem sha3 n.key = keyToStem sha3 p.key
  fork : ∀ ev s l c, p.exclusionEvidence = some ev → ev.type = .extensionMismatch →
    (p.path.getLast?).bind (t.getNode pdb) = some (.extensionRef s l c) → ev.extensionStemLen = l

end

section
variable {sha3 : Bytes → Hash} {pdb : Kv}

/-! ## What a verified hash determines -/

section
variable {S : Set Bytes} (hcf : CollisionFree sha3 zeroHash S)
include hcf

section
variable (hcov : Radix.Covers (verkle sha3) S u)
include hcov

/-- A digest of a message in `S` that is the hash of a tree is the digest of
the tree's own message. -/
theorem msg_of_hash_eq {m : Bytes}
    (hm : m ∈ S) (h : sha3 m = hash sha3 u) : Radix.msg (verkle sha3) u = some m := by
  have hne : u ≠ .empty := by
    rintro rfl
    exact hcf.ne_zero hm h
  have hmem := Radix.covers_iff.mp hcov u (Radix.mem_subs_self hne) _ (msg_nodeOf hne)
  rw [msg_nodeOf hne]
  rw [← hash_nodeOf hne, TreeNode.hash_eq] at h
  rw [hcf.inj hm hmem h]

theorem leaf_of_hash_eq (hm : n.message ∈ S) (h : sha3 n.message = hash sha3 u) :
    ∃ r n', u = .leaf r n' := by
  have hmsg := msg_of_hash_eq hcf hcov hm h
  cases u with
  | leaf r n' => exact ⟨r, n', rfl⟩
  | empty => cases hmsg
  | node | run =>
    have := Option.some.inj hmsg
    exact absurd (List.cons.inj this).1 (by decide)

theorem node_of_hash_eq (hm : internalMessage children ∈ S)
    (h : sha3 (internalMessage children) = hash sha3 u) :
    ∃ c, u = .node c ∧ children = fun i => hash sha3 (c i) := by
  have hmsg := msg_of_hash_eq hcf hcov hm h
  cases u with
  | node c => exact ⟨c, rfl, (internalMessage_injective (Option.some.inj hmsg)).symm⟩
  | empty => cases hmsg
  | leaf | run =>
    have := Option.some.inj hmsg
    exact absurd (List.cons.inj this).1 (by decide)

theorem run_of_hash_eq {child : Hash} (hm : extensionMessage stem child ∈ S)
    (h : sha3 (extensionMessage stem child) = hash sha3 u) :
    ∃ s v, u = .run s v ∧ stem = copyInto 31 s ∧ child = hash sha3 v := by
  have hmsg := msg_of_hash_eq hcf hcov hm h
  cases u with
  | run s v =>
    obtain ⟨h1, h2⟩ := extensionMessage_inj (Option.some.inj hmsg)
    exact ⟨s, v, rfl, h1.symm, h2.symm⟩
  | empty => cases hmsg
  | leaf | node =>
    have := Option.some.inj hmsg
    exact absurd (List.cons.inj this).1 (by decide)

end

end

theorem placeSibling_of_ne {sib : SiblingWithIdx}
    (h : sib.idx ≠ idx.toNat) : placeSibling children sib idx = children idx := by
  rw [placeSibling]
  split
  · next hrange =>
    have hne : idx ≠ UInt8.ofNat sib.idx.toNat := by
      intro heq
      have := congrArg UInt8.toNat heq
      simp only [UInt8.toNat_ofNat', BranchingFactor] at this hrange
      omega
    rw [Function.update_of_ne hne]
  · rfl

theorem foldl_placeSibling_of_ne : ∀ {lvl : List SiblingWithIdx} {children : UInt8 → Hash},
      (∀ sib ∈ lvl, sib.idx ≠ idx.toNat) → lvl.foldl placeSibling children idx = children idx
  | [], _, _ => rfl
  | sib :: lvl, children, h => by
      rw [List.foldl_cons, foldl_placeSibling_of_ne fun s hs => h s (List.mem_cons_of_mem _ hs),
        placeSibling_of_ne (h sib (List.mem_cons_self ..))]

theorem parentChildren_path (child : Hash) {lvl : List SiblingWithIdx}
    (h : ∀ sib ∈ lvl, sib.idx ≠ idx.toNat) : parentChildren child lvl idx idx = child :=
  (foldl_placeSibling_of_ne h).trans (Function.update_self ..)

/-- A place in a tree: the subtree `u` that the path `pre` leads to, with
`p` still to go. -/
structure At (sha3 : Bytes → Hash) (pdb : Kv) (S : Set Bytes) (t : VerkleTree) (stem : Stem)
    (pre p : Bytes) (u : StemTree) : Prop where
  path : stem.toList = pre ++ p
  wf : Radix.WF p.length u
  loc : Located sha3 pre u
  reads : Reads sha3 pdb t u
  covers : Radix.Covers (verkle sha3) S u

theorem verifyLevels_sound (hcf : CollisionFree sha3 zeroHash S) :
    ∀ {siblings : List (List SiblingWithIdx)} {exts : List ExtensionLevelData}
      {path : List Hash} {pre p : Bytes} {u : StemTree} {d : Nat},
      At sha3 pdb S t stem pre p u → path.head? = some (hash sha3 u) →
      path.length = siblings.length + 1 →
      LevelsBound pdb t stem pre.length path siblings exts →
      (∀ m ∈ levelMessages stem pre.length path siblings exts, m ∈ S) →
      verifyLevels sha3 stem pre.length path siblings exts = some d →
      ∃ pre' p' u', At sha3 pdb S t stem pre' p' u' ∧ d = pre'.length ∧
        path.getLast? = some (hash sha3 u') ∧ Radix.find u p = Radix.find u' p' := by
  intro siblings
  induction siblings with
  | nil =>
    intro exts path pre p u d hat hhead hlen _ _ hv
    obtain ⟨h, rfl⟩ := List.length_eq_one_iff.mp hlen
    have hd : pre.length = d := by
      rw [verifyLevels] at hv
      exact Option.some.inj hv
    exact ⟨pre, p, u, hat, hd.symm, hhead, rfl⟩
  | cons lvl siblings ih =>
    intro exts path pre p u d hat hhead hlen hbound hmsgs hv
    obtain ⟨parent, child, path, rfl⟩ : ∃ a b l, path = a :: b :: l := by
      match path, hlen with
      | a :: b :: l, _ => exact ⟨a, b, l, rfl⟩
    obtain rfl : parent = hash sha3 u := Option.some.inj hhead
    have hlen' : (child :: path).length = siblings.length + 1 := by simpa using hlen
    rw [verifyLevels] at hv
    rw [levelMessages] at hmsgs
    rw [LevelsBound] at hbound
    cases hext : extensionLevel exts with
    | some e =>
      simp only [hext] at hv hmsgs hbound
      obtain ⟨hmsg, hmsgs⟩ := List.forall_mem_cons.mp hmsgs
      split_ifs at hv with hover hpre hhash
      rw [not_not] at hpre hhash
      obtain ⟨s, v, rfl, hst, hchild⟩ := run_of_hash_eq hcf hat.covers hmsg hhash
      have hwf := hat.wf
      obtain ⟨hs, hnode, k, hk, hu⟩ := hwf
      have hv0 : v ≠ .empty := by rintro rfl; exact hnode
      have hget := hat.reads (.run s v) (Radix.mem_subs_self (by simp))
      have hlen : e.stemLen.toNat = s.length := by
        have := hbound.1 _ _ _ hget
        omega
      have hs31 : s.length ≤ 31 := by
        have := congrArg List.length hat.path
        simp at this
        omega
      rw [hlen, drop_stem hat.path, hst, take_copyInto hs31] at hpre
      obtain ⟨q, rfl⟩ : s <+: p := by
        rw [← hpre]
        exact List.take_prefix ..
      have hqk : q.length = k := by simpa using hk
      rw [hlen] at hv hmsgs hbound
      rw [← List.length_append] at hv hmsgs hbound
      obtain ⟨pre', p', u', hat', hd, hlast, hfind⟩ := ih
        ⟨by rw [hat.path, List.append_assoc], hqk ▸ hu, hat.loc.run, hat.reads.behind,
          hat.covers.2⟩ (by rw [← hchild]; rfl) hlen' hbound.2 hmsgs hv
      refine ⟨pre', p', u', hat', hd, ?_, ?_⟩
      · simpa using hlast
      · rw [← hfind]
        simp [Radix.find]
    | none =>
      simp only [hext] at hv hmsgs hbound
      cases hidx : stem.toList[pre.length]? with
      | none => simp [hidx] at hv
      | some idx =>
        simp only [hidx] at hv hmsgs hbound
        obtain ⟨hmsg, hrest⟩ := List.forall_mem_cons.mp hmsgs
        split_ifs at hv with hhash
        · rw [not_not] at hhash
          obtain ⟨c, rfl, hchildren⟩ := node_of_hash_eq hcf hat.covers hmsg hhash
          have hchild := parentChildren_path child (hbound.1 idx rfl)
          rw [hchildren] at hchild
          obtain ⟨k, hk, hc, -⟩ := hat.wf
          cases p with
          | nil => simp at hk
          | cons i p =>
            obtain rfl : i = idx := by
              rw [hat.path, getElem?_length_append] at hidx
              exact Option.some.inj hidx
            have hp : p.length = k := by simpa using hk
            have hone : pre.length + 1 = (pre ++ [i]).length := by simp
            rw [hone] at hv hrest hbound
            obtain ⟨pre', p', u', hat', hd, hlast, hfind⟩ := ih
              ⟨by rw [hat.path]; simp, hp ▸ hc i, hat.loc.node i, hat.reads.child i,
                hat.covers.2 i⟩ (by rw [← hchild]; rfl) hlen' hbound.2 hrest hv
            exact ⟨pre', p', u', hat', hd, by simpa using hlast, hfind⟩

/-! ## What a verified proof has passed -/

theorem validateStructure_length (h : p.validateStructure = true) :
    p.path.length = p.siblings.length + 1 ∨
      (p.path = [] ∧ p.siblings = [] ∧ p.isExclusion = true) := by
  simp only [validateStructure, Bool.and_eq_true, Bool.or_eq_true, decide_eq_true_eq,
    List.isEmpty_iff] at h
  obtain ⟨⟨⟨⟨⟨⟨-, hlen⟩, -⟩, -⟩, -⟩, -⟩, -⟩ := h
  rcases hlen with h | ⟨⟨h1, h2⟩, h3⟩
  · exact .inl h
  · exact .inr ⟨h1, h2, h3⟩

theorem verifyInclusion_cases (hlen : p.path.length = p.siblings.length + 1)
    (h : p.verifyInclusion sha3 root = true) :
    p.path.head? = some root ∧ ∃ last d, p.path.getLast? = some last ∧
      p.leafHashAndValueCheck sha3 last = true ∧
      verifyLevels sha3 (keyToStem sha3 p.key) 0 p.path p.siblings p.extensionStems = some d := by
  rw [verifyInclusion] at h
  split at h
  · cases h
  · split at h
    · next first rest last hpath hlast =>
      split at h
      · next hsib =>
        simp only [Bool.and_eq_true, decide_eq_true_eq] at h
        obtain ⟨⟨-, hfirst⟩, hleaf⟩ := h
        rw [hpath, hsib] at hlen
        obtain rfl : rest = [] := by simpa using hlen
        obtain rfl : first = last := by simpa [hpath] using hlast
        refine ⟨by simp [hpath, hfirst], first, 0, hlast, hleaf, ?_⟩
        rw [hsib, verifyLevels]
      · simp only [Bool.and_eq_true, decide_eq_true_eq, Option.isSome_iff_exists] at h
        obtain ⟨⟨hfirst, hleaf⟩, d, hd⟩ := h
        exact ⟨by simp [hpath, hfirst], last, d, hlast, hleaf, hd⟩
    · cases h

/-- An accepted exclusion proof: that of the empty tree, or the levels and
the evidence are checked. -/
theorem verifyExclusion_cases
    (hlen : p.path.length = p.siblings.length + 1 ∨ (p.path = [] ∧ p.siblings = []))
    (h : p.verifyExclusion sha3 root = true) : root = zeroHash ∧ p.path = [] ∨
    p.path.length = p.siblings.length + 1 ∧ p.path.head? = some root ∧
      ∃ last d, p.path.getLast? = some last ∧
        verifyLevels sha3 (keyToStem sha3 p.key) 0 p.path p.siblings p.extensionStems = some d ∧
        p.verifyExclusionEvidence sha3 d last = true := by
  rw [verifyExclusion] at h
  split at h
  · next first rest last hpath hlast =>
    have hlen : p.path.length = p.siblings.length + 1 := by
      rcases hlen with h | ⟨h, -⟩
      · exact h
      · rw [hpath] at h; cases h
    refine .inr ⟨hlen, ?_⟩
    split at h
    · next hsib =>
      simp only [Bool.and_eq_true, decide_eq_true_eq] at h
      obtain ⟨⟨-, hfirst⟩, hev⟩ := h
      rw [hpath, hsib] at hlen
      obtain rfl : rest = [] := by simpa using hlen
      obtain rfl : first = last := by simpa [hpath] using hlast
      refine ⟨by simp [hpath, hfirst], first, 0, hlast, ?_, hev⟩
      rw [hsib, verifyLevels]
    · simp only [Bool.and_eq_true, decide_eq_true_eq] at h
      obtain ⟨hfirst, hev⟩ := h
      split at hev
      · cases hev
      · next d hd => exact ⟨by simp [hpath, hfirst], last, d, hlast, hd, hev⟩
  · next hno =>
    simp only [Bool.and_eq_true, decide_eq_true_eq] at h
    refine .inl ⟨h.1.2, ?_⟩
    rcases hp : p.path with _ | ⟨first, rest⟩
    · rfl
    · have hlast : p.path.getLast? = some ((first :: rest).getLast (by simp)) := by
        rw [hp, List.getLast?_eq_some_getLast]
      exact (hno _ _ _ hp hlast).elim

/-! ## Soundness of bound proofs -/

theorem lookup_eq_of_find (h : Radix.find T (keyToStem sha3 key).toList = Radix.find u q) :
    lookup sha3 T key = (Radix.find u q).bind (LeafNode.lookup · key) := by
  rw [lookup, h]

theorem leaf_at_end (hcf : CollisionFree sha3 zeroHash S) (hat : At sha3 pdb S t stem pre q u)
    (hb : p.Bound sha3 pdb t) (hlast : p.path.getLast? = some (hash sha3 u)) (hn : p.leaf = some n)
    (hm : n.message ∈ S) (hhash : sha3 n.message = hash sha3 u) : ∃ r, u = .leaf r n := by
  obtain ⟨r, n', rfl⟩ := leaf_of_hash_eq hcf hat.covers hm hhash
  have hget := hat.reads (.leaf r n') (Radix.mem_subs_self (by simp))
  have heq := hb.leaf n n' hn (by rw [hlast]; exact hget)
  exact ⟨r, by rw [heq]⟩

/-- The evidence of an accepted exclusion proof: the path ends where the
key's entry is missing. -/
theorem find_none_of_evidence (hcf : CollisionFree sha3 zeroHash S) (hb : p.Bound sha3 pdb t)
    (hex : p.isExclusion = true) (hS : ∀ m ∈ p.messages sha3, m ∈ S)
    (hat : At sha3 pdb S t (keyToStem sha3 p.key) pre q u)
    (hlast : p.path.getLast? = some (hash sha3 u))
    (hev : p.verifyExclusionEvidence sha3 pre.length (hash sha3 u) = true) :
    (Radix.find u q).bind (LeafNode.lookup · p.key) = none := by
  rw [verifyExclusionEvidence] at hev
  split at hev
  · cases hev
  · next ev hevd =>
    split at hev
    · rw [decide_eq_true_eq] at hev
      have hu : u = .empty := by
        by_contra hne
        exact Radix.hash_ne_zero (M := verkle sha3) hcf hat.covers hne hev
      rw [hu]
      rfl
    · next htype =>
      split at hev
      · cases hev
      · next hhash =>
        rw [not_not] at hhash
        have hm : extensionMessage ev.extensionStem ev.extensionChild ∈ S := by
          refine hS _ ?_
          rw [messages, hevd]
          exact List.mem_append_right _ (by simp [htype])
        obtain ⟨s, v, rfl, hst, -⟩ := run_of_hash_eq hcf hat.covers hm hhash
        have hget := hat.reads (.run s v) (Radix.mem_subs_self (by simp))
        have hlen := hb.fork ev _ _ _ hevd htype (by rw [hlast]; exact hget)
        obtain ⟨hs, -, k, hk, -⟩ := hat.wf
        have h31 := congrArg List.length hat.path
        simp only [List.Vector.toList_length, List.length_append] at h31
        split at hev
        · cases hev
        · split at hev
          · next hover => simp only [hlen, StemSize, Int.toNat_natCast] at hover; omega
          · rw [decide_eq_true_eq, hlen, Int.toNat_natCast, drop_stem hat.path, hst,
              take_copyInto (by omega)] at hev
            cases hstrip : Radix.strip s q with
            | none => rw [Radix.find, hstrip]; rfl
            | some q' =>
              obtain rfl := Radix.strip_eq_some.mp hstrip
              exact absurd (List.take_left' rfl) hev
    · next htype =>
      split at hev
      · cases hev
      · split at hev
        · cases hev
        · next n hdec =>
          simp only [Bool.and_eq_true, decide_eq_true_eq] at hev
          have hn : p.leaf = some n := by
            rw [leaf, if_pos hex, hevd, Option.bind_some, if_pos htype]
            exact hdec
          have hm : n.message ∈ S := by
            refine hS _ ?_
            rw [messages, hn]
            simp
          obtain ⟨r, rfl⟩ := leaf_at_end hcf hat hb hlast hn hm hev.1
          rw [Radix.find]
          split
          · exact hev.2
          · rfl
    · cases hev

/-- A proof whose unbound fields are those of the tree is right if it
verifies. -/
theorem honest_of_bound (hrep : Rep sha3 pdb P t T)
    (hcf : CollisionFree sha3 zeroHash {m | m ∈ t.hashed ++ p.messages sha3})
    (hb : p.Bound sha3 pdb t) (hv : p.verify sha3 t.root = true) : p.Honest sha3 pdb t := by
  have hS : ∀ m ∈ p.messages sha3, m ∈ {m | m ∈ t.hashed ++ p.messages sha3} :=
    fun m hm => List.mem_append_right _ hm
  have hat : At sha3 pdb {m | m ∈ t.hashed ++ p.messages sha3} t (keyToStem sha3 p.key) []
      (keyToStem sha3 p.key).toList T :=
    ⟨rfl, (stem_length _).symm ▸ hrep.wf, hrep.loc, hrep.reads,
      hrep.covers.mono fun m hm => List.mem_append_left _ hm⟩
  have hlevels : ∀ m ∈ levelMessages (keyToStem sha3 p.key) 0 p.path p.siblings p.extensionStems,
      m ∈ {m | m ∈ t.hashed ++ p.messages sha3} := fun m hm =>
    hS m (List.mem_append_left _ (List.mem_append_left _ hm))
  rw [verify] at hv
  split at hv
  · cases hv
  · rw [Bool.and_eq_true] at hv
    obtain ⟨hvalid, hv⟩ := hv
    rw [VerkleProof.Honest, get_rep hrep]
    split at hv
    · next hex =>
      rw [if_pos hex]
      suffices hnone : lookup sha3 T p.key = none by rw [hnone]; rfl
      have hlen : p.path.length = p.siblings.length + 1 ∨ (p.path = [] ∧ p.siblings = []) :=
        (validateStructure_length hvalid).imp_right fun h => ⟨h.1, h.2.1⟩
      rcases verifyExclusion_cases hlen hv with ⟨hroot, -⟩ | ⟨hlen, hhead, last, d, hlast, hd, hev⟩
      · have hT : T = .empty := by
          by_contra hne
          rw [hrep.root] at hroot
          exact Radix.hash_ne_zero (M := verkle sha3) hcf hat.covers hne hroot
        rw [hT]
        rfl
      · obtain ⟨pre, q, u, hat', rfl, hlast', hfind⟩ := verifyLevels_sound hcf hat
          (by rw [hhead, hrep.root]) hlen hb.levels hlevels hd
        obtain rfl : hash sha3 u = last := Option.some.inj (hlast'.symm.trans hlast)
        rw [lookup_eq_of_find hfind]
        exact find_none_of_evidence hcf hb hex hS hat' hlast' hev
    · next hex =>
      rw [Bool.not_eq_true] at hex
      rw [if_neg (by simp [hex])]
      have hlen : p.path.length = p.siblings.length + 1 := by
        rcases validateStructure_length hvalid with h | ⟨-, -, h⟩
        · exact h
        · rw [hex] at h; cases h
      obtain ⟨hhead, last, d, hlast, hleaf, hd⟩ := verifyInclusion_cases hlen hv
      obtain ⟨pre, q, u, hat', rfl, hlast', hfind⟩ := verifyLevels_sound hcf hat
        (by rw [hhead, hrep.root]) hlen hb.levels hlevels hd
      obtain rfl : hash sha3 u = last := Option.some.inj (hlast'.symm.trans hlast)
      obtain ⟨n, hn, hhash, hval⟩ : ∃ n, p.leaf = some n ∧
          sha3 n.message = hash sha3 u ∧ n.lookup p.key = some p.value := by
        rw [leafHashAndValueCheck] at hleaf
        split at hleaf
        · next hne =>
          split at hleaf
          · cases hleaf
          · next n hdec =>
            simp only [Bool.and_eq_true, decide_eq_true_eq] at hleaf
            exact ⟨n, by rw [leaf, hex, if_neg (by simp), if_neg hne, hdec], hleaf⟩
        · next hnil =>
          rw [not_not] at hnil
          rw [decide_eq_true_eq] at hleaf
          exact ⟨_, by rw [leaf, hex, if_neg (by simp), if_pos hnil], hleaf, if_pos rfl⟩
      have hm : n.message ∈ {m | m ∈ t.hashed ++ p.messages sha3} := by
        refine hS _ ?_
        rw [messages, hn]
        simp
      obtain ⟨r, rfl⟩ := leaf_at_end hcf hat' hb hlast' hn hm hhash
      have hr : r = q := by
        have hloc := hat'.loc r n (by simp [Radix.find])
        rw [hb.stem hex n hn, hat'.path] at hloc
        exact (List.append_cancel_left hloc).symm
      rw [lookup_eq_of_find hfind, Radix.find, if_pos hr, Option.bind_some, hval]
      rfl

/-! ## Forged proofs -/

/-- Another leaf with the same message: the boundary between key and value
is moved by one byte. -/
def LeafNode.reframe (n : LeafNode) : LeafNode :=
  match n.value with
  | v :: rest => { n with key := n.key ++ [v], value := rest }
  | [] => { n with key := n.key.dropLast, value := n.key.getLast?.toList }

theorem message_reframe (n : LeafNode) : n.reframe.message = n.message := by
  unfold LeafNode.reframe
  split
  · next v rest hv => simp [LeafNode.message, hv]
  · next hv =>
    have hkey : n.key.dropLast ++ n.key.getLast?.toList = n.key := by
      cases hk : n.key using List.reverseRecOn with
      | nil => rfl
      | append_singleton l a => simp
    simp [LeafNode.message, hv, hkey]

theorem key_reframe_ne (h : 0 < n.key.length) : n.reframe.key ≠ n.key := by
  intro heq
  have := congrArg List.length heq
  unfold LeafNode.reframe at this
  split at this
  · simp at this
  · simp at this
    omega

theorem suffixValues_reframe (n : LeafNode) : n.reframe.suffixValues = n.suffixValues := by
  unfold LeafNode.reframe
  split <;> rfl

theorem encodable_reframe (h : n.encodable = true) (hkey : n.key.length ≤ VerkleKeySize) :
    n.reframe.encodable = true := by
  obtain ⟨-, hval, hsuf⟩ := LeafNode.encodable_iff.mp h
  simp only [VerkleKeySize] at hkey
  rw [LeafNode.encodable_iff, suffixValues_reframe]
  unfold LeafNode.reframe
  split
  · next v rest hv =>
    rw [hv] at hval
    simp only [List.length_cons, List.length_append, List.length_nil, maxLeafKeySize] at hval ⊢
    exact ⟨by omega, by omega, hsuf⟩
  · refine ⟨?_, ?_, hsuf⟩
    · simp only [List.length_dropLast, maxLeafKeySize]
      omega
    · cases n.key.getLast? <;> simp [maxLeafValueSize]

/-- The exclusion proof for the key of a leaf at the root. -/
def reframedProof (root : Hash) (n : LeafNode) : VerkleProof :=
  { key := n.key, path := [root], isExclusion := true,
    exclusionEvidence := some { type := .leafMismatch, encodedLeaf := n.reframe.encode } }

/-- Siblings for every slot, the path's own included. -/
def allSiblings (children : UInt8 → Hash) : List SiblingWithIdx :=
  slots.map fun i => { idx := i.toNat, hash := children i }

theorem foldl_placeSibling_map (children : UInt8 → Hash) :
    ∀ (l : List UInt8) (c : UInt8 → Hash) (j : UInt8),
      (l.map fun i => ({ idx := i.toNat, hash := children i } : SiblingWithIdx)).foldl
        placeSibling c j = if j ∈ l then children j else c j
  | [], _, _ => rfl
  | i :: l, c, j => by
      have hplace : placeSibling c { idx := i.toNat, hash := children i }
          = Function.update c i (children i) := by
        have hlt := i.toNat_lt
        have hrange : (0 : Int) ≤ i.toNat ∧ (i.toNat : Int) < (BranchingFactor : Int) := by
          simp only [BranchingFactor]; omega
        rw [placeSibling, if_pos hrange]
        simp
      rw [List.map_cons, List.foldl_cons, hplace, foldl_placeSibling_map children l]
      by_cases hj : j ∈ l
      · simp [hj]
      · by_cases hji : j = i
        · subst hji; simp
        · simp [hj, hji]

theorem parentChildren_allSiblings (children : UInt8 → Hash) (child : Hash) (idx : UInt8) :
    parentChildren child (allSiblings children) idx = children := by
  funext j
  rw [parentChildren, allSiblings, foldl_placeSibling_map, if_pos (mem_slots j)]

theorem length_allSiblings (children : UInt8 → Hash) : (allSiblings children).length = 256 := by
  rw [allSiblings, List.length_map, slots_length]

theorem levelValid_map {l : List UInt8} (hl : l.Nodup) (hlen : l.length ≤ 256)
    (children : UInt8 → Hash) :
    levelValid (l.map fun i => { idx := i.toNat, hash := children i }) = true := by
  have hmap : (l.map fun i => ({ idx := i.toNat, hash := children i } : SiblingWithIdx)).map
      SiblingWithIdx.idx = l.map fun i => (i.toNat : Int) := by
    simp
  simp only [levelValid, Bool.and_eq_true, decide_eq_true_eq, List.all_eq_true, hmap]
  refine ⟨⟨by simpa using hlen, ?_⟩, ?_⟩
  · intro sib hsib
    obtain ⟨i, -, rfl⟩ := List.mem_map.mp hsib
    have hlt := i.toNat_lt
    simp only [BranchingFactor]
    omega
  · refine hl.map fun i j h => ?_
    exact UInt8.toNat_inj.mp (by exact_mod_cast h)

theorem levelValid_allSiblings (children : UInt8 → Hash) :
    levelValid (allSiblings children) = true :=
  levelValid_map slots_nodup slots_length.le children

/-- The inclusion proof of any value, against a root node whose slots are
all listed as siblings. -/
def overriddenProof (sha3 : Bytes → Hash) (root : Hash) (key value : Bytes)
    (children : UInt8 → Hash) : VerkleProof :=
  { key := key, value := value, path := [root, sha3 (newLeafNode key value).message],
    siblings := [allSiblings children] }

/-- The same behind an extension at the root. -/
def overriddenBehind (sha3 : Bytes → Hash) (root : Hash) (key value s : Bytes)
    (children : UInt8 → Hash) : VerkleProof :=
  { key := key, value := value,
    path := [root, sha3 (internalMessage children), sha3 (newLeafNode key value).message],
    siblings := [[], allSiblings children],
    extensionStems := [{ stem := copyInto 31 s, stemLen := s.length },
      { stem := zeroArr 31, stemLen := 0 }] }

theorem verify_reframedProof (hroot : root ≠ zeroHash) (hhash : sha3 n.message = root)
    (hkey : 0 < n.key.length ∧ n.key.length ≤ VerkleKeySize) (henc : n.encodable = true)
    (hslot : n.suffixValues[keyToSuffix n.key]? = none) :
    (reframedProof root n).verify sha3 root = true := by
  have henc' := encodable_reframe henc hkey.2
  have hne : n.reframe.encode ≠ [] := by
    simp [LeafNode.encode, henc']
  have hlook : n.reframe.lookup n.key = none := by
    rw [LeafNode.lookup, if_neg (key_reframe_ne hkey.1), suffixValues_reframe, hslot]
  have hvalid : (reframedProof root n).validateStructure = true := by
    have h32 : n.key.length ≤ 32 := hkey.2
    simp [validateStructure, reframedProof, totalBytes, h32]
    exact h32.trans (by decide)
  have hexcl : (reframedProof root n).verifyExclusion sha3 root = true := by
    simp [verifyExclusion, reframedProof, verifyExclusionEvidence, hne,
      decodeLeafNode_encode henc', message_reframe, hhash, hlook]
  rw [verify, if_neg (fun h => hroot h.1), hvalid]
  exact hexcl

theorem verify_overriddenProof (hroot : root ≠ zeroHash) (hkey : key.length = VerkleKeySize)
    (hval : value.length = 1) (hhash : sha3 (internalMessage children) = root) :
    (overriddenProof sha3 root key value children).verify sha3 root = true := by
  have hne : value ≠ [] := by rintro rfl; simp at hval
  have hvalid : (overriddenProof sha3 root key value children).validateStructure = true := by
    simp [validateStructure, overriddenProof, totalBytes, hkey, hval,
      levelValid_allSiblings, length_allSiblings]
    decide
  have hincl : (overriddenProof sha3 root key value children).verifyInclusion sha3 root = true := by
    simp [verifyInclusion, overriddenProof, leafHashAndValueCheck, hne,
      verifyLevels, extensionLevel, recomputeParent, parentChildren_allSiblings, hhash]
  rw [verify, if_neg (fun h => hroot h.1), hvalid]
  exact hincl

theorem verify_overriddenBehind {s : Bytes} (hroot : root ≠ zeroHash)
    (hkey : key.length = VerkleKeySize) (hval : value.length = 1)
    (hs : 0 < s.length ∧ s.length < StemSize) (hpre : s <+: (keyToStem sha3 key).toList)
    (hhash : sha3 (extensionMessage (copyInto 31 s) (sha3 (internalMessage children))) = root) :
    (overriddenBehind sha3 root key value s children).verify sha3 root = true := by
  have hne : value ≠ [] := by rintro rfl; simp at hval
  have hs31 : s.length < 31 := hs.2
  have hpos : s ≠ [] := List.length_pos_iff.mp hs.1
  have htake : (keyToStem sha3 key).toList.take s.length = s :=
    (List.prefix_iff_eq_take.mp hpre).symm
  have hvalid : (overriddenBehind sha3 root key value s children).validateStructure = true := by
    simp [validateStructure, overriddenBehind, totalBytes, hkey, hval,
      levelValid_allSiblings, length_allSiblings, hpos]
    exact ⟨⟨⟨by decide, hs31.le⟩, rfl⟩, by decide⟩
  have hrun : extensionLevel [{ stem := copyInto 31 s, stemLen := s.length },
      { stem := zeroArr 31, stemLen := 0 }]
        = some { stem := copyInto 31 s, stemLen := s.length } :=
    if_pos (Int.natCast_pos.mpr hs.1)
  have hnode : extensionLevel [{ stem := zeroArr 31, stemLen := 0 }] = none := rfl
  have hincl : (overriddenBehind sha3 root key value s children).verifyInclusion sha3 root
      = true := by
    simp [verifyInclusion, overriddenBehind, leafHashAndValueCheck, hne,
      verifyLevels, hrun, hnode, recomputeParent, parentChildren_allSiblings, hhash, htake,
      take_copyInto hs31.le, hs31, hs31.le.not_gt]
  rw [verify, if_neg (fun h => hroot h.1), hvalid]
  exact hincl

/-- Against a tree that is not empty there is an accepted proof that is
wrong. -/
theorem exists_forged (hP : Separate sha3 P) (hrep : Rep sha3 pdb P t T) (hcf : t.NoCollision sha3)
    (hne : T ≠ .empty) :
    ∃ p : VerkleProof, p.verify sha3 t.root = true ∧ ¬ p.Honest sha3 pdb t := by
  have hroot : t.root ≠ zeroHash := by
    rw [hrep.root]
    exact Radix.hash_ne_zero hcf.merkle hrep.covers hne
  have hval : ∀ key, ∃ value : Bytes, value.length = 1 ∧ t.get sha3 pdb key ≠ .ok value := by
    intro key
    by_cases h : t.get sha3 pdb key = .ok [0]
    · exact ⟨[1], rfl, by rw [h]; simp⟩
    · exact ⟨[0], rfl, h⟩
  have hwf := hrep.wf
  cases T with
  | empty => exact absurd rfl hne
  | leaf r n =>
    have hfind : Radix.find (.leaf r n) r = some n := if_pos rfl
    have hok := hrep.ok r n hfind
    have hslot : n.suffixValues[keyToSuffix n.key]? = none := by
      rw [Option.eq_none_iff_forall_ne_some]
      intro v hv
      exact (hok.suffix _ v hv).2.1 rfl
    refine ⟨reframedProof t.root n, verify_reframedProof hroot hrep.root.symm
      (hP.len _ hok.primary) (hok.encodable hP) hslot, ?_⟩
    have hr : r = (keyToStem sha3 n.key).toList := (hrep.loc r n hfind).symm
    have hget : t.get sha3 pdb n.key = .ok n.value := by
      rw [get_rep hrep, lookup, ← hr, hfind, Option.bind_some, LeafNode.lookup,
        if_pos rfl]
      rfl
    simp [VerkleProof.Honest, reframedProof, hget]
  | node c =>
    obtain ⟨value, hlen, hget⟩ := hval (zeroKey 0)
    have hkey : (zeroKey 0).length = VerkleKeySize := rfl
    refine ⟨_, verify_overriddenProof hroot hkey hlen hrep.root.symm, ?_⟩
    simpa [VerkleProof.Honest, overriddenProof] using hget
  | run s u =>
    obtain ⟨hs, hnode, k, hk, hu⟩ := hwf
    cases u with
    | node c =>
      obtain ⟨j, rfl, -⟩ := hu
      have hs31 : 0 < s.length ∧ s.length < StemSize :=
        ⟨List.length_pos_iff.mpr hs, by simp only [StemSize] at hk ⊢; omega⟩
      obtain ⟨value, hlen, hget⟩ := hval ((copyInto 31 s).toList ++ [0])
      have hpre : s <+: (keyToStem sha3 ((copyInto 31 s).toList ++ [0])).toList := by
        rw [keyToStem_stem_append, copyInto_toList_of_length_le hs31.2.le]
        exact List.prefix_append ..
      refine ⟨_, verify_overriddenBehind hroot (by simp) hlen hs31 hpre hrep.root.symm, ?_⟩
      simpa [VerkleProof.Honest, overriddenBehind] using hget
    | _ => exact hnode.elim

/-- Every accepted proof is right whose unbound fields are those of the
tree; and all accepted proofs are right only for the empty tree. -/
theorem verify_sound {ops : List TreeOp} (h : SeparateRun sha3 pdb ops) : (∀ p : VerkleProof,
      CollisionFree sha3 zeroHash
        {m | m ∈ (newVerkleTree.exec sha3 pdb ops).hashed ++ p.messages sha3} →
      p.Bound sha3 pdb (newVerkleTree.exec sha3 pdb ops) →
      p.verify sha3 (newVerkleTree.exec sha3 pdb ops).root = true →
      p.Honest sha3 pdb (newVerkleTree.exec sha3 pdb ops)) ∧
    ((∀ p : VerkleProof, p.verify sha3 (newVerkleTree.exec sha3 pdb ops).root = true →
        p.Honest sha3 pdb (newVerkleTree.exec sha3 pdb ops)) ↔
      (newVerkleTree.exec sha3 pdb ops).rootNode = none) := by
  refine ⟨fun p hcf hb hv => honest_of_bound h.rep hcf hb hv, fun hall => ?_, fun hnone p hv => ?_⟩
  · by_contra hsome
    have hne : exec sha3 .empty ops ≠ .empty := by
      intro hT
      have hroot := h.rep.rootNode
      rw [hT] at hroot
      cases hn : (newVerkleTree.exec sha3 pdb ops).rootNode with
      | none => exact hsome hn
      | some n => rw [hn] at hroot; cases hroot
    obtain ⟨p, hv, hno⟩ := exists_forged (h.separate _ List.prefix_rfl) h.rep h.noCollision hne
    exact hno (hall p hv)
  · have hroot : (newVerkleTree.exec sha3 pdb ops).root = zeroHash := by
      have hr := h.rep.rootNode
      rw [hnone] at hr
      rw [h.rep.root, show exec sha3 .empty ops = .empty from hr]
      rfl
    rw [verify] at hv
    split at hv
    · cases hv
    · next hex =>
      have hex : p.isExclusion = true := by
        by_contra hne
        exact hex ⟨hroot, fun h => hne h.1⟩
      rw [VerkleProof.Honest, if_pos hex, VerkleTree.get, hnone, walk_none]

def TreeNode.leaf? : TreeNode → Option LeafNode
  | .leaf n => some n
  | _ => none

/-- A hash that tells the messages of `twoStemsOps` apart. -/
def twoStemsSha3 (m : Bytes) : Hash := copyInto 32 (m.take 2 ++ (m.drop 32).take 3)

/-- Two keys of one stem and one of another, side by side below the root. -/
def twoStemsOps : List TreeOp :=
  [.put (zeroKey 1) [7], .put (zeroKey 2) [8], .put (1 :: List.replicate 31 0) [9]]

theorem twoStems_soundRun : SoundRun twoStemsSha3 ∅ twoStemsOps := by
  exact soundRun_of_length (l := 32) (by decide) (by decide) (by decide +kernel) (by decide +kernel)
    (by decide +kernel)

def twoStemsTree : VerkleTree := newVerkleTree.exec twoStemsSha3 ∅ twoStemsOps

def twoStemsProof : VerkleProof := twoStemsTree.prove twoStemsSha3 ∅ (zeroKey 2)

theorem twoStemsProof_bound : twoStemsProof.Bound twoStemsSha3 ∅ twoStemsTree where
  levels := by
    have hext : extensionLevel twoStemsProof.extensionStems = none := by decide +kernel
    have htail : twoStemsProof.siblings.tail = [] := by decide +kernel
    have hapart : ∀ lvl ∈ twoStemsProof.siblings.head?, ∀ idx ∈
        (keyToStem twoStemsSha3 twoStemsProof.key).toList[0]?, ∀ sib ∈ lvl, sib.idx ≠ idx.toNat := by
      decide +kernel
    generalize twoStemsProof.siblings = siblings at htail hapart ⊢
    rcases twoStemsProof.path with _ | ⟨parent, path⟩
    · trivial
    rcases siblings with _ | ⟨lvl, siblings⟩
    · trivial
    obtain rfl : siblings = [] := htail
    simp only [LevelsBound, hext]
    exact ⟨hapart lvl rfl, by cases path <;> trivial⟩
  leaf n n' hn hn' := by
    have heq : ((twoStemsProof.path.getLast?).bind (twoStemsTree.getNode ∅)).bind
        TreeNode.leaf? = twoStemsProof.leaf := by decide +kernel
    rw [hn, hn'] at heq
    exact Option.some.inj heq
  stem _ n hn := by
    have hall : ∀ n ∈ twoStemsProof.leaf, keyToStem twoStemsSha3 n.key
        = keyToStem twoStemsSha3 twoStemsProof.key := by decide +kernel
    exact hall n hn
  fork ev s l c hev := by
    have hnone : twoStemsProof.exclusionEvidence = none := by decide +kernel
    rw [hnone] at hev
    cases hev

theorem verify_sound_twoStems : twoStemsProof.siblings.length = 1 ∧
    twoStemsProof.Honest twoStemsSha3 ∅ twoStemsTree ∧
      ¬ ∀ p : VerkleProof, p.verify twoStemsSha3 twoStemsTree.root = true →
        p.Honest twoStemsSha3 ∅ twoStemsTree :=
  ⟨by decide +kernel,
    (verify_sound twoStems_soundRun.separateRun).1 _ (by decide +kernel) twoStemsProof_bound
      (by decide +kernel),
    (verify_sound twoStems_soundRun.separateRun).2.not.mpr (by decide +kernel)⟩

/-- A proof that the only key of a tree is absent is accepted: the leaf it
shows has the same hash, with the first byte of the value counted to the
key. -/
theorem verify_reframed : ¬ ∀ (sha3 : Bytes → Hash) (ops : List TreeOp) (p : VerkleProof),
      (∀ op ∈ ops, 0 < op.key.length ∧ op.key.length ≤ VerkleKeySize) →
      StemsApart sha3 (p.key :: opKeys ops) →
      CollisionFree sha3 zeroHash
        {m | m ∈ (newVerkleTree.exec sha3 ∅ ops).hashed ++ p.messages sha3} →
      p.verify sha3 (newVerkleTree.exec sha3 ∅ ops).root = true →
      p.Honest sha3 ∅ (newVerkleTree.exec sha3 ∅ ops) := by
  intro h
  have hhon := h sharedStemSha3 [.put (zeroKey 1) [7]]
    (reframedProof (sharedStemSha3 (newLeafNode (zeroKey 1) [7]).message)
      (newLeafNode (zeroKey 1) [7])) (by decide +kernel) (by decide +kernel) (by decide +kernel)
    (by decide +kernel)
  revert hhon
  decide +kernel

end

end Qau
