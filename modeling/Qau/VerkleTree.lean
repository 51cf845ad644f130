import Qau.VerkleCodec

/-!
# The Verkle tree: node store, walk, insert and delete

`VerkleTree` of `qaudb/trie/verkle.go`, as explicit state passing. The
in-memory node cache `db` maps the 32 hash bytes to the encoded node;
`pendingBatch` holds the writes for the persistent database (`none` when the
tree has no such database). The persistent database itself is shared with
other code and is an argument, `pdb`. A full batch is sent off before its
`Flush`; as the cache keeps every node, no read of the tree can tell, and
what was sent stays in the batch here until the `Flush`.

The recursive functions take a fuel argument. Every recursive call of the
source goes at least one level deeper and stops at
`maxVerkleRecursionDepth`, so `treeFuel` frames are never used up before
that backstop fires. A Go run-time panic (an index out of range, a method
call on a nil node) is the result `none` of `insert`.

`hashed` is a ghost field: the messages whose digests `storeNode` has used
so far, on which the proofs assume SHA3-256 to be free of collisions. No
modelled function reads it.
-/

namespace Qau

open Function TreeNode

/-- A key-value database. -/
abbrev Kv := Fmap Bytes Bytes

abbrev MaxBatchOps : Nat := 50000
abbrev MaxBatchBytes : Nat := 64 * 1024 * 1024

/-- A batch of records and the state of its writer. Only the batches of a
`BoltDB` are `limited`; `sent` is what a full batch has sent to the database
since the last `Flush`, and `failed` is whether `pendingBatchErr` is set. -/
structure PendingBatch where
  limited : Bool
  sent : List (Bytes × Bytes)
  ops : List (Bytes × Bytes)
  failed : Bool

structure VerkleTree where
  root : Hash
  rootNode : Option TreeNode
  db : Kv
  pendingBatch : Option PendingBatch
  hashed : List Bytes

inductive TrieErr where
  | invalidKey
  | keyNotFound
  | runtimePanic
deriving DecidableEq, Repr

def vnodePrefix : Bytes := [0x76, 0x6e, 0x6f, 0x64, 0x65, 0x3a]

def rootTag : Bytes := [0x5f, 0x72, 0x6f, 0x6f, 0x74, 0x5f]

def vnodeKey (h : Hash) : Bytes := vnodePrefix ++ h.toList
def rootKey : Bytes := vnodePrefix ++ rootTag

/-- Enough frames for any descent: see the module header. -/
def treeFuel : Nat := maxVerkleRecursionDepth + 1

/-- `NewVerkleTree` without a persistent database. -/
def newVerkleTree : VerkleTree :=
  { root := zeroHash, rootNode := none, db := ∅, pendingBatch := none, hashed := [] }

/-- The number of leading bytes two strings share: the scan loops of
`insert` and `splitLeaf`. -/
def commonLen : Bytes → Bytes → Nat
  | x :: xs, y :: ys => if x = y then commonLen xs ys + 1 else 0
  | _, _ => 0

def newLeafNode (key value : Bytes) : LeafNode := { key, value, suffixValues := ∅ }

section
variable (sha3 : Bytes → Hash)

/-! ## The node store -/

/-- `Put` of a batch, with `none` for `ErrBatchFull`. -/
def PendingBatch.put (b : PendingBatch) (key data : Bytes) : Option PendingBatch :=
  if b.limited ∧ (MaxBatchOps ≤ b.ops.length ∨
      MaxBatchBytes < (b.ops.map fun e => e.2.length).sum + data.length) then none
  else some { b with ops := b.ops ++ [(key, data)] }

/-- A full batch is sent off and the record put into the empty one. If that
fails too the error is set, and until the next `Flush` nothing is recorded. -/
def PendingBatch.record (b : PendingBatch) (key data : Bytes) : PendingBatch :=
  if b.failed then b
  else (b.put key data).getD
    (let b := { b with sent := b.sent ++ b.ops, ops := [] }
    (b.put key data).getD { b with failed := true })

def VerkleTree.recordPendingWrite (t : VerkleTree) (key data : Bytes) : VerkleTree :=
  { t with pendingBatch := t.pendingBatch.map fun b => b.record key data }

/-- `storeNode`: a node that does not encode is silently not stored. -/
def VerkleTree.storeNode (t : VerkleTree) (n : TreeNode) : VerkleTree :=
  let t := { t with hashed := n.message sha3 :: t.hashed }
  let data := encodeNodeWithMagic sha3 n
  if data = [] then t
  else
    { t with db := t.db.insert (n.hash sha3).toList data }.recordPendingWrite
      (vnodeKey (n.hash sha3)) data

/-- `getNode`: the cache first, then the persistent database. -/
def VerkleTree.getNode (pdb : Kv) (t : VerkleTree) (h : Hash) : Option TreeNode :=
  if h = zeroHash then none
  else
    match (t.db[h.toList]?).bind decodeNode with
    | some n => some n
    | none => (pdb[vnodeKey h]?).bind decodeNode

/-- The child an extension leads to, loaded if it is not in memory. -/
def VerkleTree.extensionChild (pdb : Kv) (t : VerkleTree) : TreeNode → Option TreeNode
  | .extension _ _ child => some child
  | .extensionRef _ _ childHash => t.getNode pdb childHash
  | _ => none

def VerkleTree.recomputeRoot (t : VerkleTree) : VerkleTree :=
  match t.rootNode with
  | none => { t with root := zeroHash }
  | some n =>
    let t := { t with root := n.hash sha3 }
    let rootData := encodeNodeWithMagic sha3 n
    if rootData = [] then t else t.recordPendingWrite rootKey rootData

/-! ## Lookup -/

/-- `walk`. The index lookup fails exactly when `depth >= StemSize`. -/
def VerkleTree.walk (pdb : Kv) (t : VerkleTree) :
    Nat → Option TreeNode → Stem → Nat → Option TreeNode
  | 0, _, _, _ => none
  | _, none, _, _ => none
  | fuel + 1, some node, stem, depth =>
    match stem.toList[depth]? with
    | none => some node
    | some idx =>
      match node with
      | .leaf n => if keyToStem sha3 n.key = stem then some node else none
      | .internal children => t.walk pdb fuel (t.getNode pdb (children idx)) stem (depth + 1)
      | .extension s stemLen _ | .extensionRef s stemLen _ =>
        if stemLen = 0 ∨ StemSize < stemLen then none
        else if s.toList.take stemLen <+: stem.toList.drop depth then
          t.walk pdb fuel (t.extensionChild pdb node) stem (depth + stemLen)
        else none

/-- What `Get` answers at the leaf the walk ends in. -/
def LeafNode.lookup (n : LeafNode) (key : Bytes) : Option Bytes :=
  if n.key = key then some n.value else n.suffixValues[keyToSuffix key]?

def VerkleTree.get (pdb : Kv) (t : VerkleTree) (key : Bytes) : Except TrieErr Bytes :=
  match t.walk sha3 pdb treeFuel t.rootNode (keyToStem sha3 key) 0 with
  | some (.leaf n) =>
    match n.lookup key with
    | some v => .ok v
    | none => .error .keyNotFound
  | _ => .error .keyNotFound

/-! ## Insertion -/

/-- `splitLeaf`: the old leaf and a new one under an internal node at the
first byte where their stems differ, behind an extension when that byte
is not the current one. -/
def VerkleTree.splitLeaf (t : VerkleTree) (oldLeaf : LeafNode) (stem : Stem)
    (key value : Bytes) (depth : Nat) : Option (TreeNode × VerkleTree) :=
  let oldStem := keyToStem sha3 oldLeaf.key
  let div := commonLen (oldStem.toList.drop depth) (stem.toList.drop depth)
  match oldStem.toList[depth + div]?, stem.toList[depth + div]? with
  | some oldIdx, some newIdx =>
    let oldChild := leaf oldLeaf
    let t := (t.storeNode sha3 oldChild).storeNode sha3 oldChild
    let newChild := leaf (newLeafNode key value)
    let t := (t.storeNode sha3 newChild).storeNode sha3 newChild
    let children := update
      (update (fun _ => zeroHash) oldIdx (oldChild.hash sha3)) newIdx
      (newChild.hash sha3)
    let internal := internal children
    let t := t.storeNode sha3 internal
    if div = 0 then some (internal, t)
    else
      let ext := extension
        (copyInto 31 ((oldStem.toList.drop depth).take div)) div internal
      some (ext, t.storeNode sha3 ext)
  | _, _ =>
    -- `diffIdx >= StemSize`: the stems agree from `depth` on
    let leaf := leaf { newLeafNode key value with suffixValues := oldLeaf.suffixValues }
    some (leaf, t.storeNode sha3 leaf)

/-- What an extension leaves below its divergence: the child itself, or the
child behind the remaining stem. Without a child the former is a nil
node, whose `Hash` the caller cannot take. -/
def VerkleTree.remainder (t : VerkleTree) (child : Option TreeNode) (remainingStem : Stem)
    (remainingLen : Nat) : Option (TreeNode × VerkleTree) :=
  if remainingLen = 0 then child.map fun c => (c, t)
  else
    let adjusted := match child with
      | some c => extension remainingStem remainingLen c
      | none => extensionRef remainingStem remainingLen zeroHash
    some (adjusted, t.storeNode sha3 adjusted)

/-- The branch of `insert` for an extension whose stem leaves the key's
path: an internal node at the divergence, the rest of the old extension
and a new leaf below it, the shared part of the stem above it. -/
def VerkleTree.splitExtension (pdb : Kv) (t : VerkleTree) (node : TreeNode) (s : Stem)
    (stemLen : Nat) (stem : Stem) (key value : Bytes) (depth : Nat) :
    Option (TreeNode × VerkleTree) := do
  let div := commonLen (stem.toList.drop depth) (s.toList.take stemLen)
  let newIdx ← stem.toList[depth + div]?
  let oldIdx ← s.toList[div]?
  let remainingStem := copyInto 31 ((s.toList.take stemLen).drop (div + 1))
  let (oldChild, t) ← t.remainder sha3 (t.extensionChild pdb node) remainingStem
    (stemLen - div - 1)
  let t := t.storeNode sha3 oldChild
  let newLeaf := leaf (newLeafNode key value)
  let t := (t.storeNode sha3 newLeaf).storeNode sha3 newLeaf
  let children := update
    (update (fun _ => zeroHash) oldIdx (oldChild.hash sha3)) newIdx
    (newLeaf.hash sha3)
  let newInternal := internal children
  let t := t.storeNode sha3 newInternal
  if div = 0 then some (newInternal, t)
  else
    let wrapper := extension (copyInto 31 (s.toList.take div)) div newInternal
    some (wrapper, t.storeNode sha3 wrapper)

/-- The leaf case of `insert` when the stems agree. -/
def LeafNode.insertEntry (n : LeafNode) (key value : Bytes) : LeafNode :=
  if n.key = key then { n with value := value }
  else { n with suffixValues := n.suffixValues.insert (keyToSuffix key) value }

/-- `insert`. The source's branch for a divergence at the end of the
extension's stem is left out: a stem without divergence is a common
start, which the branch before it takes. -/
def VerkleTree.insert (pdb : Kv) :
    Nat → VerkleTree → Option TreeNode → Stem → Bytes → Bytes → Nat →
      Option (TreeNode × VerkleTree)
  | _, t, none, _, key, value, _ =>
    let leaf := leaf (newLeafNode key value)
    some (leaf, t.storeNode sha3 leaf)
  | 0, t, some node, _, _, _, _ => some (node, t)
  | fuel + 1, t, some node, stem, key, value, depth =>
    match node with
    | .leaf n =>
      if n.key = key ∨ keyToStem sha3 n.key = stem then
        let leaf := leaf (n.insertEntry key value)
        some (leaf, t.storeNode sha3 leaf)
      else t.splitLeaf sha3 n stem key value depth
    | .internal children =>
      match stem.toList[depth]? with
      | none => some (node, t)
      | some idx => do
          let (newChild, t) ← VerkleTree.insert pdb fuel t (t.getNode pdb (children idx))
            stem key value (depth + 1)
          if newChild.hash sha3 = children idx then some (node, t)
          else
            let t := t.storeNode sha3 newChild
            let internal := internal
              (update children idx (newChild.hash sha3))
            some (internal, t.storeNode sha3 internal)
    | .extension s stemLen _ | .extensionRef s stemLen _ =>
      if stemLen = 0 ∨ StemSize < stemLen then some (node, t)
      else if s.toList.take stemLen <+: stem.toList.drop depth then do
        let child := t.extensionChild pdb node
        let oldChildHash := (child.map (hash sha3)).getD zeroHash
        let (newChild, t) ← VerkleTree.insert pdb fuel t child stem key value
          (depth + stemLen)
        if newChild.hash sha3 = oldChildHash then some (node, t)
        else
          let ext := extension s stemLen newChild
          some (ext, t.storeNode sha3 ext)
      else t.splitExtension sha3 pdb node s stemLen stem key value depth

def VerkleTree.put (pdb : Kv) (t : VerkleTree) (key value : Bytes) :
    Except TrieErr VerkleTree :=
  if key.length = 0 ∨ VerkleKeySize < key.length then .error .invalidKey
  else
    match t.insert sha3 pdb treeFuel t.rootNode (keyToStem sha3 key) key value 0 with
    | none => .error .runtimePanic
    | some (n, t) => .ok ({ t with rootNode := some n }.recomputeRoot sha3)

/-! ## Deletion -/

/-- The key under which `delete` promotes the entry at `suffix`. -/
def LeafNode.promotedKey (n : LeafNode) (suffix : UInt8) : Bytes :=
  if VerkleKeySize ≤ n.key.length then n.key.take StemSize ++ [suffix]
  else (keyToStem sha3 n.key).toList ++ [suffix]

/-- The leaf case of `delete`: removing the primary entry promotes the
smallest suffix; otherwise the entry in the key's suffix slot goes. The
leaf's stem is not compared with the key's. -/
def LeafNode.deleteEntry (n : LeafNode) (key : Bytes) : Option LeafNode :=
  if n.key = key then
    match n.suffixValues.toList with
    | [] => none
    | (suffix, val) :: _ =>
      some { key := n.promotedKey sha3 suffix, value := val,
             suffixValues := n.suffixValues.erase suffix }
  else some { n with suffixValues := n.suffixValues.erase (keyToSuffix key) }

/-- Whether the leaf case of `delete` stores the leaf it returns. -/
def LeafNode.deleteStores (n : LeafNode) (key : Bytes) : Bool :=
  if n.key = key then !n.suffixValues.isEmpty else n.suffixValues.contains (keyToSuffix key)

/-- `allEmpty` of the internal case. -/
def allEmpty (children : UInt8 → Hash) : Bool := slots.all fun i => decide (children i = zeroHash)

/-- The recursive `delete`. -/
def VerkleTree.deleteNode (pdb : Kv) :
    Nat → VerkleTree → Option TreeNode → Stem → Bytes → Nat → Option TreeNode × VerkleTree
  | _, t, none, _, _, _ => (none, t)
  | 0, t, some node, _, _, _ => (some node, t)
  | fuel + 1, t, some node, stem, key, depth =>
    match node with
    | .leaf n =>
      match n.deleteEntry sha3 key with
      | none => (none, t)
      | some n' =>
        (some (.leaf n'), if n.deleteStores key then t.storeNode sha3 (.leaf n') else t)
    | .internal children =>
      match stem.toList[depth]? with
      | none => (some node, t)
      | some idx =>
        if children idx = zeroHash then (some node, t)
        else
          match t.getNode pdb (children idx) with
          | none =>
            let internal := internal (update children idx zeroHash)
            (some internal, t.storeNode sha3 internal)
          | some child =>
            let (newChild, t) := VerkleTree.deleteNode pdb fuel t (some child) stem key
              (depth + 1)
            let newChildHash := (newChild.map (hash sha3)).getD zeroHash
            if newChildHash = children idx then
              (if allEmpty children then none else some node, t)
            else
              let t := match newChild with
                | none => t
                | some c => t.storeNode sha3 c
              let children := update children idx newChildHash
              let internal := internal children
              (if allEmpty children then none else some internal,
                t.storeNode sha3 internal)
    | .extension s stemLen _ | .extensionRef s stemLen _ =>
      if stemLen = 0 ∨ StemSize < stemLen then (some node, t)
      else if s.toList.take stemLen <+: stem.toList.drop depth then
        match node, t.extensionChild pdb node with
        | .extensionRef _ _ childHash, none =>
          -- a missing child keeps its subtree, an empty one goes
          (if childHash = zeroHash then none else some node, t)
        | _, child =>
          match VerkleTree.deleteNode pdb fuel t child stem key (depth + stemLen) with
          | (none, t) => (none, t)
          | (some newChild, t) =>
            let ext := extension s stemLen newChild
            (some ext, t.storeNode sha3 ext)
      else (some node, t)

def VerkleTree.delete (pdb : Kv) (t : VerkleTree) (key : Bytes) : Except TrieErr VerkleTree :=
  if key.length = 0 ∨ VerkleKeySize < key.length then .error .invalidKey
  else
    let (n, t) := t.deleteNode sha3 pdb treeFuel t.rootNode (keyToStem sha3 key) key 0
    .ok ({ t with rootNode := n }.recomputeRoot sha3)

/-! ## Runs -/

/-- A call that changes the tree. -/
inductive TreeOp where
  | put (key value : Bytes)
  | delete (key : Bytes)
deriving DecidableEq

def TreeOp.key : TreeOp → Bytes
  | .put key _ => key
  | .delete key => key

def VerkleTree.step (pdb : Kv) (t : VerkleTree) : TreeOp → Except TrieErr VerkleTree
  | .put key value => t.put sha3 pdb key value
  | .delete key => t.delete sha3 pdb key

/-- A sequence of calls; one that returns an error leaves the tree alone. -/
def VerkleTree.exec (pdb : Kv) (t : VerkleTree) (ops : List TreeOp) : VerkleTree :=
  ops.foldl (fun t op => match t.step sha3 pdb op with
    | .ok t' => t'
    | .error _ => t) t

end

end Qau
