import Qau.VerkleMap
import Qau.VerkleStore

/-!
# Reopening a Verkle tree

A run of `Put`, `Delete`, `Flush` and restarts on a tree over a database.
Three slips of the source lose data on the way. `recomputeRoot` does not
touch the root record when the tree has become empty, so the record of the
last root survives; it writes the root record with `Encode`, which puts a
zero hash in place of a child that was never loaded, so a call that leaves
an extension at the root of a reopened tree as it is destroys the record;
and a node record over the 64 MiB of a `BoltDB` batch is dropped with all
that follow it, while `Flush` returns no error.

`StoreRun` is the condition under which none of them happens, and
`reopen_run` says that a restart then loses nothing.
-/

namespace Qau

open Std.ExtTreeMap VerkleTree

variable {key : Bytes} {m : Bytes → Option Bytes} {d : Db} {pdb : Kv} {L : List TreeNode}
  {r : Option TreeNode} {T : StemTree} {n : TreeNode} {t t' : VerkleTree}
  {v value : Bytes} {P : Set (Bytes × Bytes)} {op : TreeOp}

/-! ## Runs -/

/-- A tree and the database it is kept in. -/
structure TreeStore where
  db : Db
  tree : VerkleTree

variable {x : TreeStore}

/-- A call on the tree, a `Flush`, or a restart: a `Flush` followed by
`NewVerkleTree` on the same database. -/
inductive StoreOp where
  | call (op : TreeOp)
  | flush
  | reopen

variable {pre ops : List StoreOp}

section
variable (sha3 : Bytes → Hash)

namespace TreeStore

/-- `NewVerkleTree` on a database. -/
def new (d : Db) : TreeStore := { db := d, tree := openVerkleTree sha3 d [] }

def flush (x : TreeStore) : TreeStore := { db := (x.tree.flush x.db).1, tree := (x.tree.flush x.db).2 }

def reopen (x : TreeStore) : TreeStore :=
  { x.flush with tree := openVerkleTree sha3 x.flush.db x.tree.hashed }

/-- A call that returns an error leaves the tree alone. -/
def step (x : TreeStore) : StoreOp → TreeStore
  | .call op =>
    match x.tree.step sha3 x.db.view op with
    | .ok t => { x with tree := t }
    | .error _ => x
  | .flush => x.flush
  | .reopen => x.reopen sha3

def exec (x : TreeStore) (ops : List StoreOp) : TreeStore := ops.foldl (step sha3) x

def root (x : TreeStore) : Hash := x.tree.root

def get (x : TreeStore) (key : Bytes) : Except TrieErr Bytes := x.tree.get sha3 x.db.view key

end TreeStore

/-- The keys `Put` and `Delete` accept. -/
def TreeOp.Valid (op : TreeOp) : Prop := 0 < op.key.length ∧ op.key.length ≤ VerkleKeySize

instance (op : TreeOp) : Decidable op.Valid := by unfold TreeOp.Valid; infer_instance

/-- The entries after a step. -/
def StoreOp.apply (m : Bytes → Option Bytes) : StoreOp → Bytes → Option Bytes
  | .call op => if op.Valid then op.apply m else m
  | _ => m

/-- The entries after a run. -/
def storedEntries (ops : List StoreOp) : Bytes → Option Bytes :=
  ops.foldl StoreOp.apply fun _ => none

/-! ## The condition on the steps -/

/-- The call rewrites a root extension whose child is not in memory: a `Put`
has to change the tree, a `Delete` to go through the extension. -/
def TreeOp.Rewrites (x : TreeStore) (op : TreeOp) : Prop :=
  match x.tree.rootNode, op with
  | some (.extensionRef _ _ _), .put key value => x.get sha3 key ≠ .ok value
  | some (.extensionRef stem stemLen _), .delete key =>
    stem.toList.take stemLen <+: (keyToStem sha3 key).toList
  | _, _ => True

instance (x : TreeStore) (op : TreeOp) : Decidable (op.Rewrites sha3 x) := by
  unfold TreeOp.Rewrites
  split <;> infer_instance

/-- What the step needs of the state it meets to keep the root record right.
A restart needs a tree that has a root node, or a database that never had a
root record. -/
def StoreOp.Keeps (x : TreeStore) : StoreOp → Prop
  | .call op => op.Valid → op.Rewrites sha3 x
  | .flush => True
  | .reopen => x.tree.rootNode = none → (x.tree.disk x.db)[rootKey]? = none

instance (x : TreeStore) (op : StoreOp) : Decidable (op.Keeps sha3 x) := by
  unfold StoreOp.Keeps
  split <;> infer_instance

/-- A run on a database without tree records whose entries stay separate and
whose steps keep the root record, without a record over the limit of a batch
(`PendingBatch.failed_record_iff`) and without a collision of SHA3-256. -/
structure StoreRun (d : Db) (ops : List StoreOp) : Prop where
  fresh : ∀ key, vnodePrefix <+: key → d.view[key]? = none
  separate : ∀ pre, pre <+: ops → Separate sha3 (entries (storedEntries pre))
  keeps : ∀ pre op suf, ops = pre ++ op :: suf →
    op.Keeps sha3 ((TreeStore.new sha3 d).exec sha3 pre)
  recording : ∀ pre, pre <+: ops → ((TreeStore.new sha3 d).exec sha3 pre).tree.recording
  noCollision : ((TreeStore.new sha3 d).exec sha3 ops).tree.NoCollision sha3

end

/-! ## A `Put` that changes the contents changes the root -/

section
variable {sha3 : Bytes → Hash}

theorem flatMap_suffixMessage (m : Fmap UInt8 Bytes) :
    m.toList.flatMap suffixMessage = m.keys.flatMap fun s => s :: (m[s]?).getD [] := by
  rw [← map_fst_toList_eq_keys, List.flatMap_map]
  refine List.flatMap_congr fun e he => ?_
  rw [mem_toList_iff_getElem?_eq_some.mp he]
  rfl

/-- An entry that does not change the concatenated suffix entries was there. -/
theorem getElem?_of_flatMap_insert {m : Fmap UInt8 Bytes} {s : UInt8}
    (h : (m.insert s v).toList.flatMap suffixMessage = m.toList.flatMap suffixMessage) :
    m[s]? = some v := by
  rw [flatMap_suffixMessage, flatMap_suffixMessage] at h
  have hoff : ∀ l : List UInt8, s ∉ l →
      (l.flatMap fun k => k :: ((m.insert s v)[k]?).getD [])
        = l.flatMap fun k => k :: (m[k]?).getD [] := by
    intro l hl
    refine List.flatMap_congr fun k hk => ?_
    have hne : s ≠ k := fun heq => hl (heq ▸ hk)
    rw [Fmap.getElem?_insert_ne _ _ hne]
  have hnd : m.keys.Nodup := nodup_keys
  have hnd' : (m.insert s v).keys.Nodup := nodup_keys
  by_cases hs : s ∈ m
  · have hperm : (m.insert s v).keys.Perm m.keys := by
      refine (List.perm_ext_iff_of_nodup hnd' hnd).mpr fun k => ?_
      rw [mem_keys, mem_keys, mem_insert,
        Std.compare_eq_iff_eq]
      exact ⟨fun hk => hk.elim (fun heq => heq ▸ hs) id, .inr⟩
    have hkeys : (m.insert s v).keys = m.keys := by
      refine hperm.eq_of_pairwise ?_ ordered_keys ordered_keys
      intro a b _ _ hab hba
      rw [Std.OrientedOrd.eq_swap, hab] at hba
      cases hba
    obtain ⟨l₁, l₂, hl⟩ := List.append_of_mem (mem_keys.mpr hs)
    rw [hl] at hnd
    have h₁ : s ∉ l₁ := fun hmem =>
      (List.nodup_append.mp hnd).2.2 s hmem s (List.mem_cons_self ..) rfl
    have h₂ : s ∉ l₂ := (List.nodup_cons.mp (List.nodup_append.mp hnd).2.1).1
    rw [hkeys, hl, List.flatMap_append, List.flatMap_append, List.flatMap_cons,
      List.flatMap_cons, hoff l₁ h₁, hoff l₂ h₂, Fmap.getElem?_insert_self] at h
    have hv := (List.cons.inj (List.append_cancel_right (List.append_cancel_left h))).2
    obtain ⟨w, hw⟩ := Option.isSome_iff_exists.mp
      (isSome_getElem?_iff_mem.mpr hs)
    rw [hw] at hv ⊢
    exact congrArg some hv.symm
  · have hperm : (m.insert s v).keys.Perm (s :: m.keys) := by
      refine (List.perm_ext_iff_of_nodup hnd' (List.nodup_cons.mpr ⟨?_, hnd⟩)).mpr fun k => ?_
      · rwa [mem_keys]
      · rw [mem_keys, mem_insert, Std.compare_eq_iff_eq,
          List.mem_cons, mem_keys, eq_comm]
    have hlen := (hperm.flatMap_right fun k => k :: ((m.insert s v)[k]?).getD []).length_eq
    rw [h, List.flatMap_cons, hoff m.keys (by rwa [mem_keys]),
      List.length_append, List.length_cons] at hlen
    omega

/-- A leaf whose message an insertion does not change has the entry already. -/
theorem lookup_of_message_insertEntry {n : LeafNode}
    (h : (n.insertEntry key value).message = n.message) : n.lookup key = some value := by
  unfold LeafNode.insertEntry at h
  unfold LeafNode.lookup
  split at h
  · next hkey =>
    have hv := List.append_cancel_left (List.append_cancel_right (List.cons.inj h).2)
    rw [if_pos hkey, ← hv]
  · next hkey =>
    rw [if_neg hkey]
    exact getElem?_of_flatMap_insert (List.append_cancel_left (List.cons.inj h).2)

/-- A `Put` that leaves the root hash as it is found the value in the tree. -/
theorem lookup_of_hash_put (hcf : t.NoCollision sha3) (hwf : Radix.WF StemSize T)
    (hcov : Radix.Covers (verkle sha3) {m | m ∈ t.hashed} T)
    (hcov' : Radix.Covers (verkle sha3) {m | m ∈ t.hashed} (StemTree.put sha3 T key value))
    (h : StemTree.hash sha3 (StemTree.put sha3 T key value) = StemTree.hash sha3 T) :
    StemTree.lookup sha3 T key = some value := by
  have halike := Radix.alike_of_hash_eq hcf.merkle hcov' hcov h
  obtain ⟨n, hn, hmsg⟩ := Radix.exists_of_alike_upsert hwf (stem_length _) halike
  rw [StemTree.lookup, hn]
  exact lookup_of_message_insertEntry hmsg

/-! ## The invariant -/

variable (sha3) in
def RootRecord (x : TreeStore) : Prop :=
  ∀ n, x.tree.rootNode = some n →
    ((x.tree.disk x.db)[rootKey]?).bind decodeNode = some (n.unload sha3)

variable (sha3) in
/-- The tree stands for `T`, and what is on disk after a flush is the tree. -/
structure StoreInv (x : TreeStore) (m : Bytes → Option Bytes) (T : StemTree) : Prop where
  separate : Separate sha3 (entries m)
  rep : Rep sha3 x.db.view (entries m) x.tree T
  persisted : Persisted x.db x.tree
  rootRecord : RootRecord sha3 x

theorem separate_none : Separate sha3 (entries fun _ => none) :=
  ⟨fun _ he => (nomatch he), fun _ he => (nomatch he), fun _ he => (nomatch he),
    fun _ he => (nomatch he)⟩

/-- A tree stands for the same tree over another database that answers for
every node hash alike. -/
theorem Rep.congr {pdb' : Kv} (h : Rep sha3 pdb P t T) (hcf : t.NoCollision sha3)
    (hget : ∀ h, h ≠ zeroHash → t'.getNode pdb' h = t.getNode pdb h)
    (hhashed : t'.hashed = t.hashed) (hnode : RootIs sha3 t'.rootNode T) (hroot : t'.root = t.root)
    : Rep sha3 pdb' P t' T where
  wf := h.wf
  loc := h.loc
  ok := h.ok
  reads u hu := by
    have hne : StemTree.hash sha3 u ≠ zeroHash := Radix.hash_ne_zero hcf.merkle
      (Radix.covers_of_mem_subs h.covers hu) (Radix.subs_ne_empty hu)
    rw [hget _ hne]
    exact h.reads u hu
  covers := by rw [hhashed]; exact h.covers
  rootNode := hnode
  root := hroot.trans h.root

/-- A node that is read back stands for the tree the node stood for. -/
theorem Matches.unload {k : Nat} (h : Matches sha3 n T)
    (hwf : Radix.WF k T) : Matches sha3 (n.unload sha3) T := by
  rw [(h.top hwf).2]
  exact matches_nodeOf (h.top hwf).1

theorem unload_unload (n : TreeNode) : (n.unload sha3).unload sha3 = n.unload sha3 := by
  cases n <;> rfl

/-- Two trees in step with one disk find the same nodes. -/
theorem Persisted.getNode_congr {d' : Db} (h : Persisted d t)
    (h' : Persisted d' t') (hdisk : t'.disk d' = t.disk d) {k : Hash} (hne : k ≠ zeroHash) :
    t'.getNode d'.view k = t.getNode d.view k := by
  rw [h k hne, h' k hne, hdisk]

theorem storeInv_new (hfresh : ∀ key, vnodePrefix <+: key → d.view[key]? = none) :
    StoreInv sha3 (TreeStore.new sha3 d) (fun _ => none) .empty := by
  obtain ⟨hnode, hroot⟩ := openVerkleTree_of_none sha3 d []
    (hfresh rootKey (List.prefix_append ..))
  refine ⟨separate_none, ⟨trivial, fun q n h => (nomatch h), fun q n h => (nomatch h),
    fun u h => h.elim, trivial, ?_, hroot⟩, persisted_openVerkleTree d [], ?_⟩
  · show RootIs sha3 (openVerkleTree sha3 d []).rootNode .empty
    rw [hnode]
    rfl
  · intro n hn
    rw [show (TreeStore.new sha3 d).tree.rootNode = none from hnode] at hn
    cases hn

theorem StoreInv.flush (h : StoreInv sha3 x m T) (hcf : x.tree.NoCollision sha3) :
    StoreInv sha3 x.flush m T := by
  have hsame : x.flush.tree.rootNode = x.tree.rootNode ∧ x.flush.tree.root = x.tree.root ∧
      x.flush.tree.hashed = x.tree.hashed := by
    unfold TreeStore.flush VerkleTree.flush
    split <;> exact ⟨rfl, rfl, rfl⟩
  obtain ⟨hnode, hroot, hhashed⟩ := hsame
  have hdisk : x.flush.tree.disk x.flush.db = x.tree.disk x.db := disk_flush x.db x.tree
  refine ⟨h.separate, h.rep.congr hcf (fun k hne => ?_) hhashed ?_ hroot, h.persisted.flush, ?_⟩
  · exact h.persisted.getNode_congr h.persisted.flush hdisk hne
  · rw [hnode]
    exact h.rep.rootNode
  · intro n hn
    rw [hdisk]
    exact h.rootRecord n (hnode ▸ hn)

/-- A restart of a store whose root record is right, or is missing as it
should. -/
theorem StoreInv.reopen (h : StoreInv sha3 x m T) (hcf : x.tree.NoCollision sha3)
    (hempty : x.tree.rootNode = none → (x.tree.disk x.db)[rootKey]? = none) :
    StoreInv sha3 (x.reopen sha3) m T := by
  have hview : x.flush.db.view = x.tree.disk x.db := view_flush x.db x.tree
  have hdisk : (x.reopen sha3).tree.disk (x.reopen sha3).db = x.tree.disk x.db :=
    (disk_openVerkleTree _ _).trans hview
  have hpers : Persisted (x.reopen sha3).db (x.reopen sha3).tree :=
    persisted_openVerkleTree x.flush.db x.tree.hashed
  have hroot : RootIs sha3 (x.reopen sha3).tree.rootNode T ∧
      (x.reopen sha3).tree.root = x.tree.root ∧ RootRecord sha3 (x.reopen sha3) := by
    have hrep := h.rep.rootNode
    cases hn : x.tree.rootNode with
    | none =>
      rw [hn] at hrep
      obtain rfl : T = .empty := hrep
      obtain ⟨hnode, hroot⟩ := openVerkleTree_of_none sha3 x.flush.db x.tree.hashed
        (by rw [hview]; exact hempty hn)
      refine ⟨?_, hroot.trans h.rep.root.symm, fun n hn' => ?_⟩
      · rw [show (x.reopen sha3).tree.rootNode = none from hnode]
        rfl
      · rw [show (x.reopen sha3).tree.rootNode = none from hnode] at hn'
        cases hn'
    | some n =>
      rw [hn] at hrep
      have hrec := h.rootRecord n hn
      obtain ⟨data, hdata, hdec⟩ := Option.bind_eq_some_iff.mp hrec
      obtain ⟨hnode, hroot⟩ := openVerkleTree_of_rootKey sha3 x.flush.db
        x.tree.hashed (by rw [hview]; exact hdata) hdec
      refine ⟨?_, ?_, fun n' hn' => ?_⟩
      · rw [show (x.reopen sha3).tree.rootNode = some (n.unload sha3) from hnode]
        exact hrep.unload h.rep.wf
      · rw [show (x.reopen sha3).tree.root = (n.unload sha3).hash sha3 from hroot,
          TreeNode.hash_unload, (hrep.top h.rep.wf).hash_eq, h.rep.root]
      · rw [show (x.reopen sha3).tree.rootNode = some (n.unload sha3) from hnode] at hn'
        rw [hdisk, ← Option.some.inj hn', unload_unload, hrec]
  refine ⟨h.separate, h.rep.congr hcf (fun k hne => h.persisted.getNode_congr hpers hdisk hne)
    (openVerkleTree_hashed ..) hroot.1 hroot.2.1, hpers, hroot.2.2⟩

/-! ## Calls -/

theorem Called.encodable (hP : Separate sha3 P) {T' : StemTree} (hc : Called sha3 t T T' r L)
    (hwf : Radix.WF StemSize T') (hok : LeavesOk sha3 P T') : ∀ n ∈ L, n.Encodable := by
  intro n hn
  obtain ⟨hl, ⟨u, hu, htop⟩ | rfl⟩ := hc.wrote.sound n hn
  · exact encodable_of_top hP le_rfl hwf hok hu htop hl
  · trivial

theorem disk_recomputeRoot (hb : (t.recomputeRoot sha3).recording)
    (hn : t.rootNode = some n) (he : n.Encodable) :
    (t.recomputeRoot sha3).disk d = (t.disk d).insert rootKey (encodeNodeWithMagic sha3 n) := by
  simp only [recomputeRoot, hn, if_neg (encodeNodeWithMagic_ne_nil sha3 he)] at hb ⊢
  exact disk_recordPendingWrite hb d

theorem disk_recomputeRoot_vnodeKey (hb : (t.recomputeRoot sha3).recording)
    (h : Hash) : ((t.recomputeRoot sha3).disk d)[vnodeKey h]? = (t.disk d)[vnodeKey h]? := by
  simp only [recomputeRoot] at hb ⊢
  split at hb
  · rfl
  · split_ifs at hb ⊢
    · rfl
    · rw [disk_recordPendingWrite hb d, Fmap.getElem?_insert_ne _ _ (Ne.symm (vnodeKey_ne_rootKey h))]
      rfl

theorem Persisted.leave (hp : Persisted d t) (hb : (t.leave sha3 r L).recording)
    (he : ∀ n ∈ L, n.Encodable) : Persisted d (t.leave sha3 r L) := by
  intro h hne
  have hstores : { t.stores sha3 L with rootNode := r }.recording := recording_recomputeRoot hb
  have hget : (t.leave sha3 r L).getNode d.view h = (t.stores sha3 L).getNode d.view h := by
    simp only [VerkleTree.getNode, VerkleTree.leave, recomputeRoot_db]
  rw [hget, VerkleTree.leave, disk_recomputeRoot_vnodeKey hb h]
  exact hp.stores hstores he h hne

theorem rootNode_of_delete (h : t.delete sha3 pdb key = .ok t') : t'.rootNode
      = (t.deleteNode sha3 pdb treeFuel t.rootNode (keyToStem sha3 key) key 0).1 := by
  unfold delete at h
  split at h
  · cases h
  · obtain rfl := Except.ok.inj h
    rw [recomputeRoot_rootNode]

/-- A `Delete` that goes through an extension at the root loads its child. -/
theorem deleteNode_extensionRef {s : Bytes} {u : StemTree} {fuel : Nat} {stem : Stem} (hs : s ≠ [])
    (hlen : s.length ≤ StemSize) (hu : u ≠ .empty) (hr : Reads sha3 pdb t (.run s u))
    (hpre : s <+: stem.toList) (hn : (t.deleteNode sha3 pdb (fuel + 1)
      (some (.extensionRef (copyInto 31 s) s.length (StemTree.hash sha3 u))) stem key 0).1
        = some n) : n.Loaded := by
  have hchild : t.getNode pdb (StemTree.hash sha3 u) = some (nodeOf sha3 u) :=
    hr u (.inr (Radix.mem_subs_self hu))
  have hpos : 0 < s.length := List.length_pos_iff.mpr hs
  have hstem : ¬ (s.length = 0 ∨ StemSize < s.length) := by omega
  have htake : (copyInto 31 s).toList.take s.length = s := take_copyInto hlen
  rw [deleteNode] at hn
  simp only [if_neg hstem, htake, List.drop_zero, if_pos hpre, extensionChild,
    hchild] at hn
  split at hn
  · cases hn
  · cases hn
    trivial

/-- A call keeps no root node whose child is not in memory, if it rewrites
the root. -/
theorem Called.loaded (h : StoreInv sha3 x m T) (hstep : x.tree.step sha3 x.db.view op = .ok t')
    (hcf : t'.NoCollision sha3) (hop : op.Rewrites sha3 x) (ht' : t' = x.tree.leave sha3 r L)
    (hc : Called sha3 x.tree T (StemTree.step sha3 T op) r L) (hr : r = some n) : n.Loaded := by
  obtain ⟨hnone, -⟩ | ⟨n', hn', htop, hkept | ⟨hl, -⟩⟩ := hc.root
  · rw [hr] at hnone
    cases hnone
  · obtain rfl : n = n' := Option.some.inj (hr.symm.trans hn')
    have hmatch := h.rep.rootNode
    rw [hkept] at hmatch
    cases n with
    | extensionRef stem stemLen childHash =>
      simp only [TreeOp.Rewrites, hkept] at hop
      have hhashed : t'.hashed = (x.tree.stores sha3 L).hashed := by
        rw [ht', VerkleTree.leave, recomputeRoot_hashed]
      cases op with
      | put key value =>
        refine absurd ?_ hop
        have hcov := covers_of_wrote h.rep.covers hc.wrote
        rw [← hhashed] at hcov
        have hmono : ∀ msg ∈ x.tree.hashed, msg ∈ t'.hashed := step_hashed hstep
        have hhash := htop.hash_eq.symm.trans (hmatch.top h.rep.wf).hash_eq
        have hlook := lookup_of_hash_put hcf h.rep.wf (h.rep.covers.mono hmono) hcov hhash
        rw [TreeStore.get, get_rep h.rep, hlook]
        rfl
      | delete key =>
        have hroot := rootNode_of_delete hstep
        rw [ht', VerkleTree.leave, recomputeRoot_rootNode, hkept] at hroot
        cases hmatch with
        | @extensionRef s u =>
          obtain ⟨hs, hnode, k, hk, -⟩ := h.rep.wf
          have hlen : s.length ≤ StemSize := by omega
          have hpre : (copyInto 31 s).toList.take s.length
              <+: (keyToStem sha3 key).toList := hop
          rw [take_copyInto hlen] at hpre
          exact deleteNode_extensionRef hs hlen (by rintro rfl; exact hnode) h.rep.reads
            hpre (hroot.symm.trans hr)
    | _ => trivial
  · rwa [Option.some.inj (hr.symm.trans hn')]

@[simp] theorem leave_rootNode (t : VerkleTree) (r : Option TreeNode) (L : List TreeNode) :
    (t.leave sha3 r L).rootNode = r := by
  rw [VerkleTree.leave, recomputeRoot_rootNode]

/-- The root record after a call is the node the call left at the root. -/
theorem Called.rootRecord (h : StoreInv sha3 x m T)
    (hstep : x.tree.step sha3 x.db.view op = .ok (x.tree.leave sha3 r L))
    (hc : Called sha3 x.tree T (StemTree.step sha3 T op) r L)
    (hsep : Separate sha3 (entries (op.apply m))) (hop : op.Rewrites sha3 x)
    (hcf : (x.tree.leave sha3 r L).NoCollision sha3) (hb : (x.tree.leave sha3 r L).recording) :
    RootRecord sha3 { x with tree := x.tree.leave sha3 r L } := by
  intro n hn
  have hr : r = some n := (leave_rootNode ..).symm.trans hn
  have hl : n.Loaded := hc.loaded h hstep hcf hop rfl hr
  have hrep := hc.rep_step h.separate hsep h.rep hcf
  obtain ⟨hnone, -⟩ | ⟨n', hn', htop, -⟩ := hc.root
  · rw [hr] at hnone
    cases hnone
  · obtain rfl : n = n' := Option.some.inj (hr.symm.trans hn')
    have he : n.Encodable := encodable_of_top hsep le_rfl hrep.wf hrep.ok
      (Radix.mem_subs_self htop.1) htop hl
    show (((x.tree.leave sha3 r L).disk x.db)[rootKey]?).bind decodeNode = some (n.unload sha3)
    rw [VerkleTree.leave, disk_recomputeRoot hb hr he, Fmap.getElem?_insert_self]
    exact decodeNode_encode sha3 he

theorem step_of_not_valid (hv : ¬ op.Valid) (t : VerkleTree) :
    t.step sha3 pdb op = .error .invalidKey := by
  have hlen : op.key.length = 0 ∨ VerkleKeySize < op.key.length := by
    unfold TreeOp.Valid at hv
    omega
  cases op <;> exact if_pos hlen

/-- A call with a key of the right length that rewrites the root. It leaves a
root node that carries its child. -/
theorem StoreInv.call_valid (h : StoreInv sha3 x m T) (hv : op.Valid) (hop : op.Rewrites sha3 x)
    (hsep : Separate sha3 (entries (op.apply m))) :
    ∃ t', x.tree.step sha3 x.db.view op = .ok t' ∧ (t'.NoCollision sha3 → t'.recording →
      StoreInv sha3 { x with tree := t' } (op.apply m) (StemTree.step sha3 T op) ∧
        ∀ n, t'.rootNode = some n → n.Loaded) := by
  obtain ⟨t', heq, hspec⟩ := step_spec h.rep hv
  refine ⟨t', heq, fun hcf hb => ?_⟩
  obtain ⟨r, L, rfl, hc⟩ := hspec hcf
  have hrep := hc.rep_step h.separate hsep h.rep hcf
  refine ⟨⟨hsep, hrep, h.persisted.leave hb (hc.encodable hsep hrep.wf hrep.ok),
    hc.rootRecord h heq hsep hop hcf hb⟩, fun n hn => ?_⟩
  exact hc.loaded h heq hcf hop rfl ((leave_rootNode ..).symm.trans hn)

theorem StoreInv.call (h : StoreInv sha3 x m T) (hop : (StoreOp.call op).Keeps sha3 x)
    (hsep : Separate sha3 (entries ((StoreOp.call op).apply m)))
    (hcf : (x.step sha3 (.call op)).tree.NoCollision sha3)
    (hb : (x.step sha3 (.call op)).tree.recording) :
    ∃ T', StoreInv sha3 (x.step sha3 (.call op)) ((StoreOp.call op).apply m) T' := by
  by_cases hv : op.Valid
  · rw [StoreOp.apply, if_pos hv] at hsep ⊢
    obtain ⟨t', heq, hspec⟩ := h.call_valid hv (hop hv) hsep
    have hx : x.step sha3 (.call op) = { x with tree := t' } := by
      simp only [TreeStore.step, heq]
    rw [hx] at hcf hb ⊢
    exact ⟨_, (hspec hcf hb).1⟩
  · refine ⟨T, ?_⟩
    have hx : x.step sha3 (.call op) = x := by
      simp only [TreeStore.step, step_of_not_valid hv]
    rw [hx, StoreOp.apply, if_neg hv]
    exact h

/-! ## Runs -/

theorem step_tree_hashed (x : TreeStore) (op : StoreOp) :
    ∀ msg ∈ x.tree.hashed, msg ∈ (x.step sha3 op).tree.hashed := by
  intro msg hmsg
  have hflush : x.flush.tree.hashed = x.tree.hashed := by
    unfold TreeStore.flush VerkleTree.flush
    split <;> rfl
  cases op with
  | call op =>
    simp only [TreeStore.step]
    split
    · next t ht => exact step_hashed ht msg hmsg
    · exact hmsg
  | flush => rwa [TreeStore.step, hflush]
  | reopen =>
    show msg ∈ (openVerkleTree sha3 x.flush.db x.tree.hashed).hashed
    rwa [openVerkleTree_hashed]

theorem exec_tree_hashed (ops : List StoreOp) :
    ∀ x : TreeStore, ∀ msg ∈ x.tree.hashed, msg ∈ (x.exec sha3 ops).tree.hashed := by
  induction ops with
  | nil => exact fun _ _ h => h
  | cons op ops ih => exact fun x msg h => ih (x.step sha3 op) msg (step_tree_hashed x op msg h)

theorem store_exec_append (x : TreeStore) (pre suf : List StoreOp) :
    x.exec sha3 (pre ++ suf) = (x.exec sha3 pre).exec sha3 suf :=
  List.foldl_append ..

theorem StoreInv.step (h : StoreInv sha3 x m T) {op : StoreOp} (hop : op.Keeps sha3 x)
    (hsep : Separate sha3 (entries (op.apply m))) (hcf : (x.step sha3 op).tree.NoCollision sha3)
    (hb : (x.step sha3 op).tree.recording) :
    ∃ T', StoreInv sha3 (x.step sha3 op) (op.apply m) T' := by
  have hcf' : x.tree.NoCollision sha3 := hcf.mono (step_tree_hashed x op)
  cases op with
  | call op => exact h.call hop hsep hcf hb
  | flush => exact ⟨T, h.flush hcf'⟩
  | reopen => exact ⟨T, h.reopen hcf' hop⟩

theorem StoreRun.of_append {suf : List StoreOp} (h : StoreRun sha3 d (pre ++ suf)) :
    StoreRun sha3 d pre where
  fresh := h.fresh
  separate p hp := h.separate p (hp.trans (List.prefix_append ..))
  keeps p op q hpre := h.keeps p op (q ++ suf) (by rw [hpre, List.append_assoc, List.cons_append])
  recording p hp := h.recording p (hp.trans (List.prefix_append ..))
  noCollision := by
    have hcf := h.noCollision
    rw [store_exec_append] at hcf
    exact hcf.mono (exec_tree_hashed suf _)

/-- After a safe run the store keeps a tree, in memory and on disk. -/
theorem StoreRun.inv (h : StoreRun sha3 d ops) :
    ∃ T, StoreInv sha3 ((TreeStore.new sha3 d).exec sha3 ops) (storedEntries ops) T := by
  induction ops using List.reverseRecOn with
  | nil => exact ⟨.empty, storeInv_new h.fresh⟩
  | append_singleton ops op ih =>
    obtain ⟨T, hT⟩ := ih h.of_append
    have hcf := h.noCollision
    have hentries : storedEntries (ops ++ [op]) = op.apply (storedEntries ops) := by
      simp [storedEntries]
    have hsep := h.separate _ List.prefix_rfl
    have hb := h.recording _ List.prefix_rfl
    rw [store_exec_append] at hcf hb ⊢
    rw [hentries] at hsep ⊢
    exact hT.step (h.keeps ops op [] rfl) hsep hcf hb

/-! ## Keys of 32 bytes

With keys of one length the entries are separate as long as the values are
not too large. -/

theorem mem_of_storedEntries {k : Bytes} (h : storedEntries ops k = some v) :
    .call (.put k v) ∈ ops := by
  induction ops using List.reverseRecOn with
  | nil => cases h
  | append_singleton ops op ih =>
    rw [storedEntries, List.foldl_append] at h
    have hold : storedEntries ops k = some v → .call (.put k v) ∈ ops ++ [op] :=
      fun h => List.mem_append_left _ (ih h)
    cases op with
    | call op =>
      simp only [List.foldl_cons, List.foldl_nil, StoreOp.apply] at h
      split at h
      · rcases TreeOp.apply_eq_some h with rfl | h
        · exact List.mem_append_right _ (List.mem_singleton.mpr rfl)
        · exact hold h
      · exact hold h
    | flush => exact hold h
    | reopen => exact hold h

theorem separate_of_canonical
    (h : ∀ k v, m k = some v → k.length = VerkleKeySize ∧ v.length ≤ maxLeafValueSize) :
    Separate sha3 (entries m) where
  len e he := by
    rw [(h _ _ he).1]
    decide
  size e he := (h _ _ he).2
  stems e he e' he' _ _ := ⟨(h _ _ he).1, (h _ _ he').1⟩
  frames e he e' he' := .of_length_eq ((h _ _ he).1.trans (h _ _ he').1.symm)

theorem storedEntries_separate (hpre : pre <+: ops)
    (h : ∀ k v, .call (.put k v) ∈ ops → k.length = VerkleKeySize ∧ v.length ≤ maxLeafValueSize) :
    Separate sha3 (entries (storedEntries pre)) :=
  separate_of_canonical fun k v hk => h k v (hpre.subset (mem_of_storedEntries hk))

/-! ## The theorem -/

/-- A restart in a safe run gives back the root and the answer for every
key. -/
theorem reopen_run {d : Db} {ops pre suf : List StoreOp} (h : StoreRun sha3 d ops)
    (hops : ops = pre ++ .reopen :: suf) : let x := (TreeStore.new sha3 d).exec sha3 pre
    (x.reopen sha3).root = x.root ∧ ∀ key, (x.reopen sha3).get sha3 key = x.get sha3 key := by
  intro x
  subst hops
  obtain ⟨T, hT⟩ := h.of_append.inv
  have hcf : x.tree.NoCollision sha3 := h.of_append.noCollision
  have hT' := hT.reopen hcf (h.keeps pre .reopen suf rfl)
  refine ⟨hT'.rep.root.trans hT.rep.root.symm, fun key => ?_⟩
  rw [TreeStore.get, TreeStore.get, get_rep hT'.rep, get_rep hT.rep]

/-- Two keys of one stem, of which the primary one goes after a restart. -/
def reopenedOps : List StoreOp :=
  [.call (.put (zeroKey 1) [7]), .call (.put (zeroKey 2) [8]), .reopen,
    .call (.delete (zeroKey 1)), .reopen]

def reopenedStore (ops : List StoreOp) : TreeStore :=
  (TreeStore.new sharedStemSha3 (Db.on .bolt ∅)).exec sharedStemSha3 ops

theorem reopened_storeRun : StoreRun sharedStemSha3 (Db.on .bolt ∅) reopenedOps where
  fresh _ _ := rfl
  separate pre hpre := by
    refine storedEntries_separate hpre fun k v hk => ?_
    simp only [reopenedOps, List.mem_cons, StoreOp.call.injEq, TreeOp.put.injEq, reduceCtorEq,
      List.not_mem_nil, or_false] at hk
    rcases hk with ⟨rfl, rfl⟩ | ⟨rfl, rfl⟩ <;> decide
  keeps := by
    have hall : ∀ i : Fin reopenedOps.length, (reopenedOps.get i).Keeps sharedStemSha3
        (reopenedStore (reopenedOps.take i)) := by decide +kernel
    exact forall_split (p := fun pre op => StoreOp.Keeps sharedStemSha3 (reopenedStore pre) op) hall
  recording := by
    have hall : ∀ i ∈ List.range (reopenedOps.length + 1),
        (reopenedStore (reopenedOps.take i)).tree.recording := by decide +kernel
    intro pre hpre
    rw [List.prefix_iff_eq_take.mp hpre]
    exact hall _ (List.mem_range.mpr (Nat.lt_succ_of_le hpre.length_le))
  noCollision := by
    have hcf : (reopenedStore reopenedOps).tree.NoCollision sharedStemSha3 := by decide +kernel
    exact hcf

theorem reopen_run_reopened : let x := reopenedStore (reopenedOps.take 4)
    (x.reopen sharedStemSha3).root = x.root ∧
      ∀ key, (x.reopen sharedStemSha3).get sharedStemSha3 key = x.get sharedStemSha3 key := by
  have hops : reopenedOps = reopenedOps.take 4 ++ [.reopen] := rfl
  exact reopen_run reopened_storeRun hops

/-- A tree that was flushed, emptied and closed comes back with the key that
was deleted. -/
theorem reopen_run_emptied : ¬ ∀ (sha3 : Bytes → Hash) (ops : List StoreOp),
      (∀ pre, pre <+: ops → Separate sha3 (entries (storedEntries pre))) →
      ((TreeStore.new sha3 (Db.on .mem ∅)).exec sha3 ops).tree.NoCollision sha3 →
      let x := (TreeStore.new sha3 (Db.on .mem ∅)).exec sha3 ops
      (x.reopen sha3).root = x.root ∧ ∀ key, (x.reopen sha3).get sha3 key = x.get sha3 key := by
  intro h
  have hsep : ∀ k v, StoreOp.call (.put k v) ∈
      [.call (.put (zeroKey 1) [7]), .flush, .call (.delete (zeroKey 1))] →
      k.length = VerkleKeySize ∧ v.length ≤ maxLeafValueSize := by
    intro k v hk
    simp only [List.mem_cons, StoreOp.call.injEq, TreeOp.put.injEq, reduceCtorEq,
      List.not_mem_nil, or_false] at hk
    obtain ⟨rfl, rfl⟩ := hk
    decide
  have hroot := (h sharedStemSha3 _ (fun pre hpre => storedEntries_separate hpre hsep)
    (by decide +kernel)).1
  revert hroot
  decide +kernel

end

end Qau
