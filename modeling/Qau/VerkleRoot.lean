import Qau.VerkleMap

/-!
# What the root hash depends on

Two runs with the same entries need not end in the same root. Where they
do, it is because both trees are canonical, and a canonical radix tree is
determined by its entries.

Insertions alone build canonical trees, so the root of a list of `Put`s is
independent of their order, unless two keys share a stem: the leaf of the
stem hashes the key that came first before the others (`root_perm`).

A `Delete` does not merge what a `Put` has split. A `Put` and the `Delete`
of the same key give the old root back exactly when the `Put` found a free
slot (`root_put_delete`).
-/

namespace Qau

open Std.ExtTreeMap StemTree

variable {key p pre : Bytes} {l : List (Bytes × Bytes)} {ops : List TreeOp} {stem : Stem}
  {T : StemTree} {n : TreeNode}
  {k v q s : Bytes} {t : VerkleTree} {u : StemTree} {fuel : Nat} {P : Set (Bytes × Bytes)}

section
variable (sha3 : Bytes → Hash)

/-- The tree after a list of `Put`s. -/
def putAll (pdb : Kv) (l : List (Bytes × Bytes)) : VerkleTree :=
  newVerkleTree.exec sha3 pdb (l.map fun e => .put e.1 e.2)

/-- Whether `insert` splits a leaf or an extension on the way of a stem. -/
def VerkleTree.splits (pdb : Kv) (t : VerkleTree) :
    Nat → Option TreeNode → Stem → Nat → Bool
  | 0, _, _, _ => false
  | _, none, _, _ => false
  | fuel + 1, some node, stem, depth =>
    match node with
    | .leaf n => keyToStem sha3 n.key ≠ stem
    | .internal children =>
      match stem.toList[depth]? with
      | none => false
      | some idx => t.splits pdb fuel (t.getNode pdb (children idx)) stem (depth + 1)
    | .extension s stemLen _ | .extensionRef s stemLen _ =>
      if stemLen = 0 ∨ StemSize < stemLen then false
      else if s.toList.take stemLen <+: stem.toList.drop depth then
        t.splits pdb fuel (t.extensionChild pdb node) stem (depth + stemLen)
      else true

/-- Whether `delete` takes the leaf of a key out of an internal node that
has at most one other child. -/
def VerkleTree.strands (pdb : Kv) (t : VerkleTree) :
    Nat → Option TreeNode → Stem → Bytes → Nat → Bool
  | 0, _, _, _, _ => false
  | _, none, _, _, _ => false
  | fuel + 1, some node, stem, key, depth =>
    match node with
    | .leaf _ => false
    | .internal children =>
      match stem.toList[depth]? with
      | none => false
      | some idx =>
        match t.getNode pdb (children idx) with
        | some (.leaf n) => (n.deleteEntry sha3 key).isNone &&
            decide ((slots.filter fun j => j ≠ idx ∧ children j ≠ zeroHash).length < 2)
        | child => t.strands pdb fuel child stem key (depth + 1)
    | .extension s stemLen _ | .extensionRef s stemLen _ =>
      if stemLen = 0 ∨ StemSize < stemLen then false
      else if s.toList.take stemLen <+: stem.toList.drop depth then
        t.strands pdb fuel (t.extensionChild pdb node) stem key (depth + stemLen)
      else false

/-- A `Put` of the key would split a leaf or an extension. -/
def VerkleTree.Splits (pdb : Kv) (t : VerkleTree) (key : Bytes) : Prop :=
  t.splits sha3 pdb treeFuel t.rootNode (keyToStem sha3 key) 0 = true

/-- A `Delete` of the key would leave an internal node with one child. -/
def VerkleTree.Strands (pdb : Kv) (t : VerkleTree) (key : Bytes) : Prop :=
  t.strands sha3 pdb treeFuel t.rootNode (keyToStem sha3 key) key 0 = true

instance (pdb : Kv) (t : VerkleTree) (key : Bytes) : Decidable (t.Splits sha3 pdb key) :=
  inferInstanceAs (Decidable (_ = true))

instance (pdb : Kv) (t : VerkleTree) (key : Bytes) : Decidable (t.Strands sha3 pdb key) :=
  inferInstanceAs (Decidable (_ = true))

/-- No `Delete` of the run leaves an internal node with one child. -/
def Unstranded (pdb : Kv) (ops : List TreeOp) : Prop :=
  ∀ pre key suf, ops = pre ++ .delete key :: suf →
    ¬ (newVerkleTree.exec sha3 pdb pre).Strands sha3 pdb key

end

section
variable {sha3 : Bytes → Hash} {pdb : Kv}

/-! ## Lists of insertions -/

theorem wf_exec (ops : List TreeOp) : Radix.WF StemSize (exec sha3 .empty ops) := by
  induction ops using List.reverseRecOn with
  | nil => trivial
  | append_singleton ops op ih =>
    rw [stemExec_append]
    exact wf_step ih op

theorem stemExec_puts_snoc (l : List (Bytes × Bytes)) (e : Bytes × Bytes) :
    exec sha3 .empty ((l ++ [e]).map fun e => .put e.1 e.2)
      = put sha3 (exec sha3 .empty (l.map fun e => .put e.1 e.2)) e.1 e.2 := by
  rw [List.map_append]
  exact stemExec_append ..

theorem canon_puts (l : List (Bytes × Bytes)) :
    Radix.Canon (exec sha3 .empty (l.map fun e => .put e.1 e.2)) := by
  induction l using List.reverseRecOn with
  | nil => trivial
  | append_singleton l e ih =>
    rw [stemExec_puts_snoc]
    exact Radix.canon_upsert (wf_exec _) (stem_length _) ih

theorem mem_of_contents_puts (h : contents (l.map fun e => .put e.1 e.2) k = some v) :
    (k, v) ∈ l := by
  obtain ⟨e, he, heq⟩ := List.mem_map.mp (put_mem_of_contents h)
  obtain ⟨rfl, rfl⟩ := TreeOp.put.inj heq
  exact he

variable (pdb) in
theorem rep_putAll (hsep : Separate sha3 {e | e ∈ l}) (hcf : (putAll sha3 pdb l).NoCollision sha3) :
    Rep sha3 pdb (entries (contents (l.map fun e => .put e.1 e.2))) (putAll sha3 pdb l)
      (exec sha3 .empty (l.map fun e => .put e.1 e.2)) := by
  refine rep_exec ?_ ?_ hcf
  · intro op hop
    obtain ⟨e, he, rfl⟩ := List.mem_map.mp hop
    exact hsep.len e he
  · rintro pre ⟨suf, heq⟩
    obtain ⟨l1, l2, rfl, rfl, -⟩ := List.append_eq_map_iff.mp heq
    refine hsep.mono fun e he => ?_
    exact List.mem_append_left _ (mem_of_contents_puts he)

/-- With pairwise different stems every entry has a leaf of its own. -/
theorem find_puts (hst : l.Pairwise fun e e' => keyToStem sha3 e.1 ≠ keyToStem sha3 e'.1)
    {n : LeafNode} : Radix.find (exec sha3 .empty (l.map fun e => .put e.1 e.2)) q = some n ↔
      ∃ e ∈ l, q = (keyToStem sha3 e.1).toList ∧ n = newLeafNode e.1 e.2 := by
  induction l using List.reverseRecOn generalizing q n with
  | nil =>
    constructor
    · intro h; cases h
    · rintro ⟨e, he, -⟩; cases he
  | append_singleton l e ih =>
    obtain ⟨hl, -, hnew⟩ := List.pairwise_append.mp hst
    have hnew' : ∀ e' ∈ l, (keyToStem sha3 e.1).toList ≠ (keyToStem sha3 e'.1).toList :=
      fun e' he' h => hnew e' he' e (List.mem_singleton.mpr rfl) (List.Vector.eq _ _ h.symm)
    have hfree : Radix.find (exec sha3 .empty (l.map fun e => .put e.1 e.2))
        (keyToStem sha3 e.1).toList = none := by
      rw [Option.eq_none_iff_forall_ne_some]
      intro n hn
      obtain ⟨e', he', hq, -⟩ := (ih hl).mp hn
      exact hnew' e' he' hq
    rw [stemExec_puts_snoc, put, Radix.find_upsert (wf_exec _) (stem_length _), hfree,
      ih hl]
    constructor
    · rintro (⟨rfl, rfl⟩ | ⟨-, e', he', hq, hn⟩)
      · exact ⟨e, List.mem_append_right _ (List.mem_singleton.mpr rfl), rfl, rfl⟩
      · exact ⟨e', List.mem_append_left _ he', hq, hn⟩
    · rintro ⟨e', he', rfl, rfl⟩
      rcases List.mem_append.mp he' with hmem | hmem
      · exact .inr ⟨(hnew' e' hmem).symm, e', hmem, rfl, rfl⟩
      · obtain rfl := List.mem_singleton.mp hmem
        exact .inl ⟨rfl, rfl⟩

variable (sha3) in
theorem find_puts_first (e : Bytes × Bytes) (l : List (Bytes × Bytes)) :
    ∃ n, Radix.find (exec sha3 .empty ((e :: l).map fun e => .put e.1 e.2))
      (keyToStem sha3 e.1).toList = some n ∧ n.key = e.1 := by
  induction l using List.reverseRecOn with
  | nil => exact ⟨newLeafNode e.1 e.2, if_pos rfl, rfl⟩
  | append_singleton l e' ih =>
    obtain ⟨n, hn, hkey⟩ := ih
    rw [← List.cons_append, stemExec_puts_snoc, put]
    simp only [Radix.find_upsert (wf_exec _) (stem_length _)]
    by_cases hst : keyToStem sha3 e.1 = keyToStem sha3 e'.1
    · rw [← hst, hn]
      refine ⟨n.insertEntry e'.1 e'.2, .inl ⟨rfl, rfl⟩, ?_⟩
      rw [← hkey, LeafNode.insertEntry]
      split <;> rfl
    · exact ⟨n, .inr ⟨fun h => hst (List.Vector.eq _ _ h), hn⟩, hkey⟩

/-- Lists of insertions that begin with different keys of one stem have
different roots. -/
theorem root_ne_of_first_ne {l' : List (Bytes × Bytes)} {e e' : Bytes × Bytes}
    (hsep : Separate sha3 {x | x ∈ e :: l}) (hperm : (e' :: l').Perm (e :: l)) (hne : e.1 ≠ e'.1)
    (hst : keyToStem sha3 e.1 = keyToStem sha3 e'.1) {S : Set Bytes}
    (hcf : CollisionFree sha3 zeroHash S) (hS : ∀ m ∈ (putAll sha3 pdb (e :: l)).hashed, m ∈ S)
    (hS' : ∀ m ∈ (putAll sha3 pdb (e' :: l')).hashed, m ∈ S) :
    (putAll sha3 pdb (e' :: l')).root ≠ (putAll sha3 pdb (e :: l)).root := by
  have hsep' : Separate sha3 {x | x ∈ e' :: l'} := hsep.mono fun x hx => hperm.subset hx
  have hrep := rep_putAll pdb hsep (hcf.mono hS)
  have hrep' := rep_putAll pdb hsep' (hcf.mono hS')
  rw [hrep.root, hrep'.root]
  intro hroot
  obtain ⟨n, hn, hkey⟩ := find_puts_first sha3 e l
  obtain ⟨n', hn', hkey'⟩ := find_puts_first sha3 e' l'
  have halike := Radix.alike_of_hash_eq hcf (hrep.covers.mono hS) (hrep'.covers.mono hS')
    hroot.symm
  obtain ⟨q, b, hb, hmsg⟩ := Radix.find_of_alike halike hn
  have hok : LeafOk sha3 {x | x ∈ e :: l} n := (hrep.ok _ n hn).mono fun x hx =>
    mem_of_contents_puts hx
  have hokb : LeafOk sha3 {x | x ∈ e :: l} b := (hrep'.ok _ b hb).mono fun x hx =>
    hperm.subset (mem_of_contents_puts hx)
  have hbkey : b.key = e.1 := (LeafOk.key_eq hsep hok hokb hmsg).symm.trans hkey
  have hq := hrep'.loc q b hb
  rw [hbkey, hst, List.nil_append] at hq
  rw [← hq, hn'] at hb
  obtain rfl := Option.some.inj hb
  exact hne (hbkey.symm.trans hkey')

/-- The order of insertions does not show in the root, for every order,
exactly when no two keys share a stem. -/
theorem root_perm {l : List (Bytes × Bytes)} (hnodup : (l.map Prod.fst).Nodup)
    (hsep : Separate sha3 {e | e ∈ l})
    (hcf : CollisionFree sha3 zeroHash {m | ∃ l', l'.Perm l ∧ m ∈ (putAll sha3 pdb l').hashed}) :
    (∀ l', l'.Perm l → (putAll sha3 pdb l').root = (putAll sha3 pdb l).root) ↔
      l.Pairwise fun e e' => keyToStem sha3 e.1 ≠ keyToStem sha3 e'.1 := by
  constructor
  · intro hroot
    rw [List.pairwise_iff_forall_sublist]
    intro e e' hsub hst
    obtain ⟨r, hr⟩ := hsub.exists_perm_append
    have hkeys := (hr.map Prod.fst).nodup_iff.mp hnodup
    have hne : e.1 ≠ e'.1 := by
      intro h
      simp [h] at hkeys
    have h1 : (e :: e' :: r).Perm l := hr.symm
    have h2 : (e' :: e :: r).Perm l := (List.Perm.swap ..).trans h1
    refine root_ne_of_first_ne (hsep.mono fun x hx => h1.subset hx) (h2.trans h1.symm) hne hst
      hcf (fun m hm => ⟨_, h1, hm⟩) (fun m hm => ⟨_, h2, hm⟩) ?_
    rw [hroot _ h1, hroot _ h2]
  · intro hst l' hperm
    have hsep' : Separate sha3 {e | e ∈ l'} := hsep.mono fun e he => hperm.subset he
    have hst' : l'.Pairwise fun e e' => keyToStem sha3 e.1 ≠ keyToStem sha3 e'.1 :=
      hst.perm hperm.symm fun h => h.symm
    have hrep := rep_putAll pdb hsep (hcf.mono fun m hm => ⟨l, .refl l, hm⟩)
    have hrep' := rep_putAll pdb hsep' (hcf.mono fun m hm => ⟨l', hperm, hm⟩)
    have htree : exec sha3 .empty (l'.map fun e => .put e.1 e.2)
        = exec sha3 .empty (l.map fun e => .put e.1 e.2) := by
      refine Radix.eq_of_find_eq hrep'.wf hrep.wf (canon_puts l') (canon_puts l) fun q _ => ?_
      refine Option.ext fun n => ?_
      rw [find_puts hst', find_puts hst]
      simp only [hperm.mem_iff]
    rw [hrep'.root, hrep.root, htree]

/-- Two entries whose keys share a stem. -/
def sharedStemPair : List (Bytes × Bytes) := [(zeroKey 1, [7]), (zeroKey 2, [8])]

theorem root_perm_sharedStemPair : ¬ ∀ l', l'.Perm sharedStemPair →
      (putAll sharedStemSha3 ∅ l').root = (putAll sharedStemSha3 ∅ sharedStemPair).root := by
  have hlen : ∀ e ∈ sharedStemPair, e.1.length = VerkleKeySize := by decide
  have hsize : ∀ e ∈ sharedStemPair, e.2.length ≤ maxLeafValueSize := by decide
  refine (root_perm (by decide) ?_ ?_).not.mpr (by decide +kernel)
  · refine ⟨fun e he => ?_, hsize, fun e he e' he' _ _ => ⟨hlen e he, hlen e' he'⟩,
      fun e he e' he' => Framed.of_length_eq ((hlen e he).trans (hlen e' he').symm)⟩
    rw [hlen e he]
    decide
  · have hall : CollisionFree sharedStemSha3 zeroHash
        {m | m ∈ (putAll sharedStemSha3 ∅ sharedStemPair).hashed ++
          (putAll sharedStemSha3 ∅ sharedStemPair.reverse).hashed} := by decide +kernel
    refine hall.mono ?_
    rintro m ⟨l', hl', hm⟩
    rcases List.perm_pair.mp hl' with rfl | rfl
    · exact List.mem_append_left _ hm
    · exact List.mem_append_right _ hm

/-- Orders of the same insertions with different roots: the keys share a
stem. -/
theorem root_perm_sharedStem : ¬ ∀ (sha3 : Bytes → Hash) (l l' : List (Bytes × Bytes)), l'.Perm l →
      (l.map Prod.fst).Nodup → (∀ e ∈ l, 0 < e.1.length ∧ e.1.length ≤ VerkleKeySize) →
      CollisionFree sha3 zeroHash
        {m | m ∈ (putAll sha3 ∅ l).hashed ++ (putAll sha3 ∅ l').hashed} →
      (putAll sha3 ∅ l').root = (putAll sha3 ∅ l).root := by
  intro h
  have hroot := h sharedStemSha3 sharedStemPair sharedStemPair.reverse
    (List.reverse_perm _) (by decide) (by decide) (by decide +kernel)
  revert hroot
  decide +kernel

/-! ## Insertions that split -/

theorem splits_none (t : VerkleTree) (fuel : Nat) (stem : Stem) (depth : Nat) :
    t.splits sha3 pdb fuel none stem depth = false := by
  cases fuel <;> rfl

theorem splits_extension (h : AtRun sha3 pdb t stem s u n pre p) (fuel : Nat) :
    t.splits sha3 pdb (fuel + 1) (some n) stem pre.length =
      if s <+: stem.toList.drop pre.length then
        t.splits sha3 pdb fuel (t.extensionChild pdb n) stem (pre.length + s.length)
      else true := by
  have hm := h.node
  cases hm <;> simp only [VerkleTree.splits, if_neg h.guard, h.take]

theorem splits_spec (h : Descends sha3 pdb t stem T fuel n pre p) (hloc : Located sha3 pre T) :
    t.splits sha3 pdb fuel (some n) stem pre.length = false ↔ Radix.Fits T p := by
  induction h using Descends.rule with
  | leaf r n fuel pre p h =>
    simp only [VerkleTree.splits, Radix.Fits, decide_eq_false_iff_not, not_not]
    exact keyToStem_eq_iff hloc h.stem
  | slot c fuel pre i p h hidx hci hget =>
    simp only [VerkleTree.splits, hidx, Radix.Fits, hget, splits_none]
    rw [hci]
    exact ⟨fun _ => trivial, fun _ => trivial⟩
  | child c fuel pre i p h h' hidx hci hget ih =>
    simp only [VerkleTree.splits, hidx, Radix.Fits, hget]
    simpa using ih (hloc.node i)
  | run s u fuel n pre q h h' hrun hpre ih =>
    rw [splits_extension hrun, if_pos hpre, hrun.child, Radix.Fits]
    simpa using ih hloc.run
  | leave s u fuel n pre p h hrun hpre hstrip =>
    rw [splits_extension hrun, if_neg hpre, Radix.Fits]
    refine ⟨fun h => (nomatch h), ?_⟩
    rintro ⟨q, rfl, -⟩
    simp at hstrip

theorem splits_rep (h : Rep sha3 pdb P t T) (key : Bytes) :
    ¬ t.Splits sha3 pdb key ↔ Radix.Fits T (keyToStem sha3 key).toList := by
  rw [VerkleTree.Splits, Bool.not_eq_true]
  rcases h.root_cases key with ⟨hn, rfl⟩ | ⟨n, hn, hdesc⟩
  · rw [hn, splits_none]
    exact ⟨fun _ => trivial, fun _ => rfl⟩
  · rw [hn]
    exact splits_spec hdesc h.loc

/-- What a `Put` of an absent key wrote into its leaf, the `Delete` takes
out again. -/
theorem deleteEntry_putLeaf {value : Bytes} {o : Option LeafNode}
    (h : o.bind (LeafNode.lookup · key) = none) :
    (putLeaf key value o).deleteEntry sha3 key = o := by
  cases o with
  | none =>
    have hnil : (∅ : Fmap UInt8 Bytes).toList = [] := toList_eq_nil_iff.mpr rfl
    simp [putLeaf, newLeafNode, LeafNode.deleteEntry, hnil]
  | some n =>
    simp only [Option.bind_some, LeafNode.lookup] at h
    split at h
    · cases h
    · next hne =>
      simp only [putLeaf, LeafNode.insertEntry, if_neg hne, LeafNode.deleteEntry]
      rw [Fmap.erase_insert_of_getElem?_eq_none value h]

/-- Putting an absent key and deleting it again gives back the root exactly
when the insertion splits nothing. -/
theorem root_put_delete_iff (h : SoundRun sha3 pdb (ops ++ [.put k v, .delete k]))
    (habs : contents ops k = none) :
    (newVerkleTree.exec sha3 pdb (ops ++ [.put k v, .delete k])).root
        = (newVerkleTree.exec sha3 pdb ops).root ↔
      ¬ (newVerkleTree.exec sha3 pdb ops).Splits sha3 pdb k := by
  have happ : ops ++ [.put k v, .delete k] = (ops ++ [.put k v]) ++ [.delete k] := by simp
  have hput : SoundRun sha3 pdb (ops ++ [.put k v]) := by
    rw [happ] at h
    exact h.prefix_left
  have hrep := hput.prefix_left.rep
  have hrep2 := h.rep
  have hnone : lookup sha3 (exec sha3 .empty ops) k = none := by
    rw [Option.eq_none_iff_forall_ne_some]
    intro w hw
    have hget : contents ops k = some w := lookup_sound hrep.loc hrep.ok hput.last.2 hw
    rw [habs] at hget
    cases hget
  have hcov : Radix.Covers (verkle sha3)
      {m | m ∈ (newVerkleTree.exec sha3 pdb (ops ++ [.put k v, .delete k])).hashed}
      (exec sha3 .empty ops) := by
    refine hrep.covers.mono fun m hm => ?_
    simp only [exec_append]
    exact exec_hashed m hm
  have htree : exec sha3 .empty (ops ++ [.put k v, .delete k])
      = Radix.remove (LeafNode.deleteEntry sha3 · k)
          (Radix.upsert (putLeaf k v) (exec sha3 .empty ops) (keyToStem sha3 k).toList)
          (keyToStem sha3 k).toList := by
    rw [happ, stemExec_append, stemExec_append]
    rfl
  rw [splits_rep hrep, hrep.root, hrep2.root]
  constructor
  · intro hroot
    by_contra hfit
    have halike := Radix.alike_of_hash_eq h.noCollision.merkle hrep2.covers hcov hroot
    rw [htree] at halike
    exact Radix.not_alike_remove_upsert (f := putLeaf k v) (g := (LeafNode.deleteEntry sha3 · k))
      (deleteEntry_putLeaf (o := none) rfl) hrep.wf (stem_length _) hfit halike
  · intro hfit
    rw [htree, Radix.remove_upsert hrep.wf (stem_length _) hfit (deleteEntry_putLeaf hnone)]

/-! ## Deletions that leave the tree canonical -/

theorem strands_extension (h : AtRun sha3 pdb t stem s u n pre p) (fuel : Nat) (key : Bytes) :
    t.strands sha3 pdb (fuel + 1) (some n) stem key pre.length =
      if s <+: stem.toList.drop pre.length then
        t.strands sha3 pdb fuel (t.extensionChild pdb n) stem key (pre.length + s.length)
      else false := by
  have hm := h.node
  cases hm <;> simp only [VerkleTree.strands, if_neg h.guard, h.take]

theorem slots_nodup : slots.Nodup := by
  refine List.Nodup.map_on (fun a ha b hb h => ?_) List.nodup_range
  have ha' := List.mem_range.mp ha
  have hb' := List.mem_range.mp hb
  have := congrArg UInt8.toNat h
  simp only [UInt8.toNat_ofNat', BranchingFactor] at this ha' hb'
  omega

theorem exists_two_slots {children : UInt8 → Hash} {i : UInt8}
    (h : ¬ (slots.filter fun j => j ≠ i ∧ children j ≠ zeroHash).length < 2) :
    ∃ j k, j ≠ k ∧ j ≠ i ∧ k ≠ i ∧ children j ≠ zeroHash ∧ children k ≠ zeroHash := by
  have hnd := slots_nodup.filter fun j => decide (j ≠ i ∧ children j ≠ zeroHash)
  have hmem : ∀ j ∈ slots.filter fun j => decide (j ≠ i ∧ children j ≠ zeroHash),
      j ≠ i ∧ children j ≠ zeroHash := fun j hj => by simpa using (List.mem_filter.mp hj).2
  match hl : slots.filter fun j => decide (j ≠ i ∧ children j ≠ zeroHash) with
  | [] => rw [hl] at h; exact absurd (by simp) h
  | [_] => rw [hl] at h; exact absurd (by simp) h
  | j :: k :: rest =>
    rw [hl] at hnd hmem
    have hjk : j ≠ k := by
      rintro rfl
      simp at hnd
    obtain ⟨hj, hj'⟩ := hmem j (by simp)
    obtain ⟨hk, hk'⟩ := hmem k (by simp)
    exact ⟨j, k, hjk, hj, hk, hj', hk'⟩

/-- Where `strands` is false the deletion keeps a canonical tree canonical. -/
theorem keeps_of_not_strands (h : Descends sha3 pdb t stem T fuel n pre p) (hcan : Radix.Canon T)
    (hno : t.strands sha3 pdb fuel (some n) stem key pre.length = false) :
    Radix.Keeps (LeafNode.deleteEntry sha3 · key) T p := by
  induction h using Descends.rule with
  | leaf r n fuel pre p h => trivial
  | slot c fuel pre i p h hidx hci hget =>
    obtain ⟨-, j, l, hjl, hj, hl⟩ := hcan
    refine ⟨by rw [hci]; trivial, fun _ => ⟨j, l, hjl, ?_, ?_, hj, hl⟩⟩
    · rintro rfl; exact hj hci
    · rintro rfl; exact hl hci
  | child c fuel pre i p h h' hidx hci hget ih =>
    obtain ⟨hcc, -⟩ := hcan
    simp only [VerkleTree.strands, hidx, hget] at hno
    rw [List.length_append] at ih
    cases hT : c i with
    | empty => exact absurd hT hci
    | leaf r n =>
      rw [Radix.Keeps, hT]
      refine ⟨trivial, fun hrem => ?_⟩
      have hdel : n.deleteEntry sha3 key = none := by
        simp only [Radix.remove] at hrem
        split at hrem
        · assumption
        · cases hrem
      rw [hT] at hno
      simp only [nodeOf, hdel, Option.isNone_none, Bool.true_and,
        decide_eq_false_iff_not] at hno
      obtain ⟨j, l, hjl, hji, hli, hj, hl⟩ := exists_two_slots hno
      refine ⟨j, l, hjl, hji, hli, ?_, ?_⟩
      · intro h; rw [h] at hj; exact hj rfl
      · intro h; rw [h] at hl; exact hl rfl
    | _ =>
      have hrec : t.strands sha3 pdb fuel (some (nodeOf sha3 (c i))) stem key
          (pre.length + 1) = false := by
        rw [hT] at hno ⊢
        exact hno
      refine ⟨ih (hcc i) hrec, fun hrem => absurd hrem ?_⟩
      exact Radix.remove_ne_empty_of_canon h'.wf rfl (hcc i) hci
        (fun r a h => by rw [hT] at h; cases h)
  | run s u fuel n pre q h h' hrun hpre ih =>
    rintro q' hq
    obtain rfl := List.append_cancel_left hq
    rw [strands_extension hrun, if_pos hpre, hrun.child] at hno
    exact ih hcan (by simpa using hno)
  | leave s u fuel n pre p h hrun hpre hstrip =>
    rintro q rfl
    simp at hstrip

theorem keeps_rep (h : Rep sha3 pdb P t T) (hcan : Radix.Canon T) (hno : ¬ t.Strands sha3 pdb key) :
    Radix.Keeps (LeafNode.deleteEntry sha3 · key) T (keyToStem sha3 key).toList := by
  rw [VerkleTree.Strands, Bool.not_eq_true] at hno
  rcases h.root_cases key with ⟨-, rfl⟩ | ⟨n, hn, hdesc⟩
  · trivial
  · rw [hn] at hno
    exact keeps_of_not_strands hdesc hcan hno

theorem canon_exec (h : SoundRun sha3 pdb ops)
    (hno : Unstranded sha3 pdb ops) : Radix.Canon (exec sha3 .empty ops) := by
  induction ops using List.reverseRecOn with
  | nil => trivial
  | append_singleton ops op ih =>
    have hcan := ih h.prefix_left fun pre key suf heq =>
      hno pre key (suf ++ [op]) (by rw [heq]; simp)
    rw [stemExec_append]
    cases op with
    | put key value => exact Radix.canon_upsert (wf_exec ops) (stem_length _) hcan
    | delete key =>
      exact Radix.canon_remove hcan (keeps_rep h.prefix_left.rep hcan (hno ops key [] rfl))

/-- After a sound run, when no two present keys share a stem, the leaves
are the entries. -/
theorem find_exec (h : SoundRun sha3 pdb ops)
    (hst : ∀ a b, contents ops a ≠ none → contents ops b ≠ none →
      keyToStem sha3 a = keyToStem sha3 b → a = b) {n : LeafNode} :
    Radix.find (exec sha3 .empty ops) q = some n ↔
      ∃ k v, contents ops k = some v ∧ q = (keyToStem sha3 k).toList ∧ n = newLeafNode k v := by
  have hrep := h.rep
  have hleaf : ∀ {q n}, Radix.find (exec sha3 .empty ops) q = some n →
      contents ops n.key = some n.value ∧ n = newLeafNode n.key n.value := by
    intro q n hn
    have hok := hrep.ok q n hn
    have hprim : contents ops n.key = some n.value := hok.primary
    refine ⟨hprim, ?_⟩
    have hempty : n.suffixValues = ∅ := by
      refine ext_getElem? fun s => ?_
      rw [getElem?_empty, Option.eq_none_iff_forall_ne_some]
      intro v hv
      obtain ⟨-, hs, hmem⟩ := hok.suffix s v hv
      have hmem : contents ops ((keyToStem sha3 n.key).toList ++ [s]) = some v := hmem
      have hkey := hst n.key _ (by simp [hprim]) (by simp [hmem])
        (keyToStem_stem_append sha3 _ s).symm
      rw [hkey, keyToSuffix_stem_append] at hs
      exact hs rfl
    rw [newLeafNode, ← hempty]
  constructor
  · intro hn
    obtain ⟨hprim, heq⟩ := hleaf hn
    exact ⟨n.key, n.value, hprim, (hrep.loc q n hn).symm, heq⟩
  · rintro ⟨k, v, hk, rfl, rfl⟩
    obtain ⟨n, hn, hl⟩ := Option.bind_eq_some_iff.mp (h.lookup_complete hk)
    obtain ⟨hprim, heq⟩ := hleaf hn
    have hkey : n.key = k := hst _ _ (by simp [hprim]) (by simp [hk])
      (List.Vector.eq _ _ (hrep.loc _ n hn))
    rw [hkey, hk] at hprim
    rw [hn, heq, hkey, Option.some.inj hprim]

theorem root_eq_of_contents_eq {ops' : List TreeOp} (h : SoundRun sha3 pdb ops)
    (h' : SoundRun sha3 pdb ops') (hno : Unstranded sha3 pdb ops) (hno' : Unstranded sha3 pdb ops')
    (heq : contents ops = contents ops')
    (hst : ∀ a b, contents ops a ≠ none → contents ops b ≠ none →
      keyToStem sha3 a = keyToStem sha3 b → a = b) :
    (newVerkleTree.exec sha3 pdb ops).root = (newVerkleTree.exec sha3 pdb ops').root := by
  have htree : exec sha3 .empty ops = exec sha3 .empty ops' := by
    refine Radix.eq_of_find_eq (wf_exec ops) (wf_exec ops') (canon_exec h hno)
      (canon_exec h' hno') fun q _ => Option.ext fun n => ?_
    rw [find_exec h hst, find_exec h' (heq ▸ hst), heq]
  rw [h.rep.root, h'.rep.root, htree]

/-- A `Put` of an absent key is undone by its `Delete` exactly when it
splits nothing; and sound runs without a stranding deletion end in a root
that only depends on their entries, as long as these have different
stems. -/
theorem root_put_delete (sha3 : Bytes → Hash) (pdb : Kv) :
    (∀ ops k v, SoundRun sha3 pdb (ops ++ [.put k v, .delete k]) → contents ops k = none →
      ((newVerkleTree.exec sha3 pdb (ops ++ [.put k v, .delete k])).root
          = (newVerkleTree.exec sha3 pdb ops).root ↔
        ¬ (newVerkleTree.exec sha3 pdb ops).Splits sha3 pdb k)) ∧
    ∀ ops ops', SoundRun sha3 pdb ops → SoundRun sha3 pdb ops' → Unstranded sha3 pdb ops →
      Unstranded sha3 pdb ops' → contents ops = contents ops' →
      (∀ a b, contents ops a ≠ none → contents ops b ≠ none →
        keyToStem sha3 a = keyToStem sha3 b → a = b) →
      (newVerkleTree.exec sha3 pdb ops).root = (newVerkleTree.exec sha3 pdb ops').root :=
  ⟨fun _ _ _ h habs => root_put_delete_iff h habs,
    fun _ _ h h' hno hno' heq hst => root_eq_of_contents_eq h h' hno hno' heq hst⟩

theorem putDelete_soundRun : SoundRun sharedStemSha3 ∅
    ([.put (zeroKey 1) [7]] ++ [.put (zeroKey 2) [8], .delete (zeroKey 2)]) := by
  exact soundRun_of_length (l := 32) (by decide) (by decide) (by decide +kernel) (by decide +kernel)
    (by decide +kernel)

theorem putOnly_soundRun : SoundRun sharedStemSha3 ∅ [.put (zeroKey 2) [8]] := by
  exact soundRun_of_length (l := 32) (by decide) (by decide) (by decide +kernel) (by decide +kernel)
    (by decide +kernel)

/-- A key put into a leaf of its stem is taken out again, and the primary
key of a stem can be deleted without a trace. -/
theorem root_put_delete_sharedStem : (newVerkleTree.exec sharedStemSha3 ∅
        ([.put (zeroKey 1) [7]] ++ [.put (zeroKey 2) [8], .delete (zeroKey 2)])).root
      = (newVerkleTree.exec sharedStemSha3 ∅ [.put (zeroKey 1) [7]]).root ∧
    (newVerkleTree.exec sharedStemSha3 ∅ sharedStemOps).root
      = (newVerkleTree.exec sharedStemSha3 ∅ [.put (zeroKey 2) [8]]).root := by
  have hcont : contents sharedStemOps = contents [.put (zeroKey 2) [8]] := by
    funext k
    by_cases h1 : k = zeroKey 1
    · subst h1; decide
    · by_cases h2 : k = zeroKey 2
      · subst h2; decide
      · simp [sharedStemOps, contents, TreeOp.apply, Function.update_of_ne h1,
          Function.update_of_ne h2]
  have honly : ∀ a, contents sharedStemOps a ≠ none → a = zeroKey 2 := by
    intro a ha
    rw [hcont] at ha
    exact List.mem_singleton.mp (contents_ne_none ha)
  refine ⟨((root_put_delete sharedStemSha3 ∅).1 _ _ _ putDelete_soundRun (by decide)).mpr
      (by decide +kernel),
    (root_put_delete sharedStemSha3 ∅).2 _ _ sharedStem_soundRun putOnly_soundRun ?_ ?_ hcont
      fun a b ha hb _ => (honly a ha).trans (honly b hb).symm⟩
  · intro pre key suf heq
    rcases pre with _ | ⟨a, _ | ⟨b, _ | ⟨c, pre⟩⟩⟩ <;> simp [sharedStemOps] at heq
    obtain ⟨rfl, rfl, rfl, rfl⟩ := heq
    decide +kernel
  · intro pre key suf heq
    rcases pre with _ | ⟨a, pre⟩ <;> simp at heq

/-- A 32-byte key whose stem differs from that of `zeroKey` in the first
byte. -/
def oneKey : Bytes := 1 :: List.replicate 31 0

/-- The leaf hashes of `zeroKey 1 ↦ 7` and of `oneKey ↦ 9`. -/
def leafHash7 : Nat := 0xcb3c90f96e67f7eafa9f2cc9992a7f68022ad22cef00dd3f427bf36cb5540ed3
def leafHash9 : Nat := 0x325c06fb4e07d216541af7884c340de5d643b15b8ca02948b53aa29eabb1f33d

/-- SHA3-256 on the messages of a run that puts `zeroKey 1`, then puts and
deletes `oneKey`; the unlisted one is that of the internal node with both. -/
def splitSha3 : Bytes → Hash := tableSha3
  [(0 :: zeroKey 1 ++ [7], leafHash7), (0 :: oneKey ++ [9], leafHash9),
    (internalMessage (Function.update (fun _ => zeroHash) 0 (digestOf leafHash7)),
      0x822a0779413b27d160f00a5f75816bbd77b86086300f85e83f5c6e97aa74f303)]
  0x787dffdb9f68940946f16e42821347a5dd421af7d26edfb976b58db4d5b79bee

set_option maxRecDepth 100000 in
/-- A deletion does not merge the internal node the insertion made. -/
theorem root_put_delete_split : ¬ ∀ (sha3 : Bytes → Hash) (ops : List TreeOp) (k v : Bytes),
      (∀ op ∈ ops ++ [.put k v, .delete k], 0 < op.key.length ∧ op.key.length ≤ VerkleKeySize) →
      StemsApart sha3 (opKeys (ops ++ [.put k v, .delete k])) → contents ops k = none →
      (newVerkleTree.exec sha3 ∅ (ops ++ [.put k v, .delete k])).NoCollision sha3 →
      (newVerkleTree.exec sha3 ∅ (ops ++ [.put k v, .delete k])).root
        = (newVerkleTree.exec sha3 ∅ ops).root := by
  intro h
  have hroot := h splitSha3 [.put (zeroKey 1) [7]] oneKey [9] (by decide +kernel)
    (by decide +kernel) (by decide +kernel) (by decide +kernel)
  revert hroot
  decide +kernel

end

end Qau
