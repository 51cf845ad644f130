import Qau.Database
import Qau.VerkleRun

/-!
# The Verkle tree on disk

`Flush` and `NewVerkleTree` over a database with `loadFromDB` and
`rebuildRootFromDB`, of `qaudb/trie/verkle.go`. The tree writes
its nodes under `"vnode:"` and the node's hash, and the root node once more
under `"vnode:_root_"`; a tree that is opened reads the root record and
finds all other nodes by their hashes.

`disk` is what the database holds once the pending batch is flushed.
`Persisted` says that it answers for every node hash as the tree itself
does.
-/

namespace Qau

open VerkleTree

variable {L : List TreeNode}

abbrev MaxNodesToLoad : Nat := 100000

/-- The records of a batch, those sent off before its `Flush` included. -/
def PendingBatch.records (b : PendingBatch) : List BatchOp :=
  (b.sent ++ b.ops).map fun e => (e.1, some e.2)

/-- `Flush`. It clears the error and returns none, also when records were
dropped because of it. -/
def VerkleTree.flush (d : Db) (t : VerkleTree) : Db × VerkleTree :=
  match t.pendingBatch with
  | none => (d, t)
  | some b =>
    (d.write b.records, { t with pendingBatch := some { b with sent := [], ops := [], failed := false } })

/-- An empty batch of a database. The batches of a `Capture` have no limit. -/
def Db.newBatch (d : Db) : PendingBatch :=
  { limited := d.capture.isNone && d.kind == .bolt, sent := [], ops := [], failed := false }

/-- The records `loadFromDB` takes into memory. -/
def loadedNodes (d : Db) : List (Bytes × Bytes) :=
  ((d.iterator vnodePrefix).filter fun e => decide (vnodePrefix.length < e.1.length)).take
    MaxNodesToLoad

section
variable (sha3 : Bytes → Hash)

/-- `NewVerkleTree` over a database. The ghost field starts with the
messages hashed before the process that opens the tree. -/
def openVerkleTree (d : Db) (hashed : List Bytes) : VerkleTree :=
  let nodes := loadedNodes d
  let t : VerkleTree :=
    { root := zeroHash, rootNode := none
      db := nodes.foldl (fun m e => m.insert (e.1.drop vnodePrefix.length) e.2) ∅
      pendingBatch := some d.newBatch, hashed }
  if nodes = [] then t
  else
    match (d.get rootKey).bind decodeNode with
    | none => t
    | some node => { t with rootNode := some node, root := node.hash sha3 }

end

/-! ## What is on disk after a flush -/

def VerkleTree.pending (t : VerkleTree) : List BatchOp := t.pendingBatch.elim [] PendingBatch.records

def VerkleTree.disk (d : Db) (t : VerkleTree) : Kv := writeAll d.view t.pending

@[simp] theorem view_flush (d : Db) (t : VerkleTree) : (t.flush d).1.view = t.disk d := by
  unfold VerkleTree.flush disk pending
  cases t.pendingBatch with
  | none => rfl
  | some b => exact Db.view_write ..

@[simp] theorem disk_flush (d : Db) (t : VerkleTree) :
    (t.flush d).2.disk (t.flush d).1 = t.disk d := by
  have hpending : (t.flush d).2.pending = [] ∨ (t.flush d).2.pending = t.pending ∧
      t.pendingBatch = none := by
    unfold VerkleTree.flush
    cases h : t.pendingBatch with
    | none => exact .inr ⟨rfl, rfl⟩
    | some b => exact .inl rfl
  rw [disk, view_flush]
  rcases hpending with h | ⟨h, hnone⟩
  · rw [h]
    rfl
  · rw [h, pending, hnone]
    rfl

theorem getNode_eq (pdb : Kv) (t : VerkleTree) {h : Hash} (hne : h ≠ zeroHash) : t.getNode pdb h
      = ((t.db[h.toList]?).bind decodeNode).or ((pdb[vnodeKey h]?).bind decodeNode) := by
  rw [getNode, if_neg hne]
  cases (t.db[h.toList]?).bind decodeNode <;> rfl

theorem vnodeKey_inj {h h' : Hash} (heq : vnodeKey h = vnodeKey h') : h = h' :=
  List.Vector.eq _ _ (List.append_cancel_left heq)

theorem vnodeKey_ne_rootKey (h : Hash) : vnodeKey h ≠ rootKey := by
  intro heq
  have hlen := congrArg List.length heq
  simp [vnodeKey, rootKey, rootTag] at hlen

/-- The disk answers for every node hash as the tree does. -/
def Persisted (d : Db) (t : VerkleTree) : Prop :=
  ∀ h, h ≠ zeroHash → t.getNode d.view h = ((t.disk d)[vnodeKey h]?).bind decodeNode

section
variable {sha3 : Bytes → Hash}

theorem PendingBatch.records_record {b : PendingBatch} {key data : Bytes}
    (h : (b.record key data).failed = false) :
    b.failed = false ∧ (b.record key data).records = b.records ++ [(key, some data)] := by
  unfold PendingBatch.record PendingBatch.put PendingBatch.records at *
  grind

/-- A record is lost exactly if one was before, or if it alone is over the
limit of a `BoltDB`. -/
theorem PendingBatch.failed_record_iff (b : PendingBatch) (key data : Bytes) :
    (b.record key data).failed ↔ b.failed ∨ (b.limited ∧ MaxBatchBytes < data.length) := by
  unfold PendingBatch.record PendingBatch.put
  grind

/-- The tree has a database and no record for it was lost. -/
def VerkleTree.recording (t : VerkleTree) : Bool := t.pendingBatch.any fun b => !b.failed

section
variable {t : VerkleTree}

section
variable {key data : Bytes} (hb : (t.recordPendingWrite key data).recording)
include hb

theorem recording_recordPendingWrite : t.recording ∧
    (t.recordPendingWrite key data).pending = t.pending ++ [(key, some data)] := by
  unfold recording VerkleTree.recordPendingWrite pending at *
  cases h : t.pendingBatch with
  | none => simp [h] at hb
  | some b =>
    have hrec : b.failed = false ∧ (b.record key data).records = b.records ++ [(key, some data)] :=
      PendingBatch.records_record (by simpa [h] using hb)
    simpa using hrec

theorem disk_recordPendingWrite (d : Db) :
    (t.recordPendingWrite key data).disk d = (t.disk d).insert key data := by
  rw [disk, (recording_recordPendingWrite hb).2, writeAll_append]
  rfl

end

theorem recording_storeNode {n : TreeNode} (hb : (t.storeNode sha3 n).recording) : t.recording := by
  simp only [VerkleTree.storeNode] at hb
  split at hb
  · exact hb
  · exact (recording_recordPendingWrite hb).1

theorem recording_stores : ∀ {t : VerkleTree}, (t.stores sha3 L).recording → t.recording := by
  induction L with
  | nil => exact id
  | cons n L ih => exact fun hb => recording_storeNode (ih hb)

theorem recording_recomputeRoot (hb : (t.recomputeRoot sha3).recording) : t.recording := by
  simp only [VerkleTree.recomputeRoot] at hb
  split at hb
  · exact hb
  · split at hb
    · exact hb
    · exact (recording_recordPendingWrite hb).1

theorem disk_storeNode {n : TreeNode} (hb : (t.storeNode sha3 n).recording) (d : Db)
    (he : n.Encodable) : (t.storeNode sha3 n).disk d
      = (t.disk d).insert (vnodeKey (n.hash sha3)) (encodeNodeWithMagic sha3 n) := by
  simp only [VerkleTree.storeNode, if_neg (encodeNodeWithMagic_ne_nil sha3 he)] at hb ⊢
  exact disk_recordPendingWrite hb d

end

/-- Storing a node that can be read back keeps tree and disk in step. -/
theorem Persisted.storeNode {d : Db} {t : VerkleTree} (hp : Persisted d t)
    {n : TreeNode} (hb : (t.storeNode sha3 n).recording) (he : n.Encodable) :
    Persisted d (t.storeNode sha3 n) := by
  intro h hne
  rw [disk_storeNode hb d he]
  by_cases hh : n.hash sha3 = h
  · subst hh
    rw [getNode_storeNode_self t he hne, Fmap.getElem?_insert_self, Option.bind_some,
      decodeNode_encode sha3 he]
  · rw [getNode_storeNode_ne t hh, Fmap.getElem?_insert_ne _ _ fun heq => hh (vnodeKey_inj heq)]
    exact hp h hne

theorem Persisted.stores {d : Db} :
    ∀ {t : VerkleTree}, Persisted d t → (t.stores sha3 L).recording → (∀ n ∈ L, n.Encodable) →
      Persisted d (t.stores sha3 L) := by
  induction L with
  | nil => exact fun hp _ _ => hp
  | cons n L ih =>
    intro t hp hb he
    exact ih (hp.storeNode (recording_stores hb) (he n (List.mem_cons_self ..))) hb
      fun m hm => he m (List.mem_cons_of_mem _ hm)

theorem Persisted.flush {d : Db} {t : VerkleTree} (hp : Persisted d t) :
    Persisted (t.flush d).1 (t.flush d).2 := by
  intro h hne
  have hdb : (t.flush d).2.db = t.db := by
    unfold VerkleTree.flush
    split <;> rfl
  have hold := hp h hne
  rw [getNode_eq _ _ hne] at hold
  rw [disk_flush, getNode_eq _ _ hne, view_flush, hdb]
  cases hn : (t.db[h.toList]?).bind decodeNode with
  | none => rfl
  | some n =>
    rw [hn, Option.some_or] at hold
    rw [Option.some_or, hold]

/-! ## Opening -/

theorem mem_loadedNodes {d : Db} {e : Bytes × Bytes} (h : e ∈ loadedNodes d) :
    d.view[e.1]? = some e.2 ∧ vnodePrefix <+: e.1 :=
  Db.mem_items.mp (Db.mem_of_mem_iterator (List.mem_of_mem_filter (List.mem_of_mem_take h)))

theorem getElem?_foldl_loaded {d : Db} {l : List (Bytes × Bytes)}
    (hl : ∀ e ∈ l, d.view[e.1]? = some e.2 ∧ vnodePrefix <+: e.1) :
    ∀ {m : Kv}, (∀ {k v}, m[k]? = some v → d.view[vnodePrefix ++ k]? = some v) →
      ∀ {k v}, (l.foldl (fun m e => m.insert (e.1.drop vnodePrefix.length) e.2) m)[k]? = some v →
        d.view[vnodePrefix ++ k]? = some v := by
  induction l with
  | nil => exact fun hm => hm
  | cons e l ih =>
    intro m hm
    refine ih (fun e he => hl e (List.mem_cons_of_mem _ he)) ?_
    intro k v hk
    obtain ⟨hv, ⟨rest, hrest⟩⟩ := hl e (List.mem_cons_self ..)
    have hdrop : e.1.drop vnodePrefix.length = rest := by rw [← hrest, List.drop_left]
    dsimp only at hk
    rw [hdrop] at hk
    by_cases hkr : rest = k
    · subst hkr
      rw [Fmap.getElem?_insert_self] at hk
      rw [hrest, hv, hk]
    · rw [Fmap.getElem?_insert_ne _ _ hkr] at hk
      exact hm hk

theorem loadedNodes_ne_nil {d : Db} {data : Bytes} (h : d.view[rootKey]? = some data) :
    loadedNodes d ≠ [] := by
  intro hnil
  -- otherwise all that the iterator returns is the one key without a hash
  have hlong : ∀ e ∈ d.iterator vnodePrefix, e.1 = vnodePrefix := by
    intro e he
    have hnone : (d.iterator vnodePrefix).filter
        (fun e => decide (vnodePrefix.length < e.1.length)) = [] := by
      rcases List.take_eq_nil_iff.mp hnil with h0 | h0
      · cases h0
      · exact h0
    have hle := List.filter_eq_nil_iff.mp hnone e he
    have hpre := (Db.mem_items.mp (Db.mem_of_mem_iterator he)).2
    exact (hpre.eq_of_length_le (by simpa using hle)).symm
  have hlen : (d.iterator vnodePrefix).length ≤ 1 := by
    rw [← List.length_map (f := Prod.fst)]
    have hnd : ((d.iterator vnodePrefix).map Prod.fst).Nodup := by
      rcases d.iterator_eq_take vnodePrefix with heq | heq
      · rw [heq]
        exact d.nodup_keys_items _
      · rw [heq]
        exact (d.nodup_keys_items _).sublist ((List.take_sublist _ _).map _)
    have hall : ∀ k ∈ (d.iterator vnodePrefix).map Prod.fst, k = vnodePrefix := by
      intro k hk
      obtain ⟨e, he, rfl⟩ := List.mem_map.mp hk
      exact hlong e he
    rw [List.eq_replicate_of_mem hall] at hnd ⊢
    simpa using List.nodup_replicate.mp hnd
  have hroot : (rootKey, data) ∈ d.items vnodePrefix :=
    Db.mem_items.mpr ⟨h, List.prefix_append ..⟩
  have hiter : d.iterator vnodePrefix = d.items vnodePrefix := by
    rcases d.iterator_eq_take vnodePrefix with heq | heq
    · exact heq
    · rw [heq, List.length_take] at hlen
      rw [heq, List.take_of_length_le]
      simp only [maxIterations] at hlen ⊢
      omega
  rw [← hiter] at hroot
  have hkey : rootKey = vnodePrefix := hlong _ hroot
  exact absurd hkey (by decide)

section
variable (d : Db) (hashed : List Bytes)
include d hashed

theorem openVerkleTree_db : (openVerkleTree sha3 d hashed).db
    = (loadedNodes d).foldl (fun m e => m.insert (e.1.drop vnodePrefix.length) e.2) ∅ := by
  simp only [openVerkleTree]
  split
  · rfl
  · split <;> rfl

theorem openVerkleTree_pendingBatch : (openVerkleTree sha3 d hashed).pendingBatch = some d.newBatch := by
  simp only [openVerkleTree]
  split
  · rfl
  · split <;> rfl

@[simp] theorem openVerkleTree_hashed : (openVerkleTree sha3 d hashed).hashed = hashed := by
  simp only [openVerkleTree]
  split
  · rfl
  · split <;> rfl

theorem disk_openVerkleTree : (openVerkleTree sha3 d hashed).disk d = d.view := by
  rw [disk, pending, openVerkleTree_pendingBatch]
  rfl

end

variable (sha3) in
theorem openVerkleTree_of_rootKey (d : Db) (hashed : List Bytes) {data : Bytes} {n : TreeNode}
    (h : d.view[rootKey]? = some data) (hn : decodeNode data = some n) :
    (openVerkleTree sha3 d hashed).rootNode = some n ∧
      (openVerkleTree sha3 d hashed).root = n.hash sha3 := by
  have hget : (d.get rootKey).bind decodeNode = some n := by
    rw [← Db.getElem?_view, h, Option.bind_some, hn]
  simp [openVerkleTree, loadedNodes_ne_nil h, hget]

variable (sha3) in
theorem openVerkleTree_of_none (d : Db) (hashed : List Bytes) (h : d.view[rootKey]? = none) :
    (openVerkleTree sha3 d hashed).rootNode = none ∧
      (openVerkleTree sha3 d hashed).root = zeroHash := by
  have hget : (d.get rootKey).bind decodeNode = none := by
    rw [← Db.getElem?_view, h, Option.bind_none]
  simp only [openVerkleTree, hget]
  split <;> exact ⟨rfl, rfl⟩

theorem getNode_openVerkleTree (d : Db) (hashed : List Bytes) {h : Hash} (hne : h ≠ zeroHash) :
    (openVerkleTree sha3 d hashed).getNode d.view h = (d.view[vnodeKey h]?).bind decodeNode := by
  rw [getNode_eq _ _ hne, openVerkleTree_db]
  cases hk : ((loadedNodes d).foldl (fun m e => m.insert (e.1.drop vnodePrefix.length) e.2)
      (∅ : Kv))[h.toList]? with
  | none => rfl
  | some data =>
    have hview := getElem?_foldl_loaded (fun e he => mem_loadedNodes he)
      (fun {k v} (hm : (∅ : Kv)[k]? = some v) => by simp at hm) hk
    rw [vnodeKey, hview, Option.bind_some]
    cases decodeNode data <;> rfl

theorem persisted_openVerkleTree (d : Db) (hashed : List Bytes) :
    Persisted d (openVerkleTree sha3 d hashed) := by
  intro h hne
  rw [disk_openVerkleTree, getNode_openVerkleTree d hashed hne]

end

end Qau
