import Qau.StateDB

/-!
# Committing the state

`Commit` of `qaudb/state/state_db.go`. A commit stages the dirty accounts,
the pending code and the dirty slots in one batch, writes it together with
the commit-pending marker, updates the account cache and the tree, flushes
the tree, and ends with a second batch that clears the marker and writes
the new root and height.

Two loops run over Go maps. A `CommitChoice` fixes the orders in which they
visit their entries and in which full caches give up theirs, and every
result holds for all choices. Writes that the database refuses (a full disk,
a value over the limits of a `BoltDB` batch) are not modelled, so that a
commit here fails in the staging phase only; what the phase has done to the
instance by then stays, and an error comes with the state it leaves.
-/

namespace Qau

structure CommitChoice where
  accounts : RangeOrder Address
  storage : RangeOrder Address
  /-- The order of eviction for each entry that goes into the cache. -/
  evict : Nat → RangeOrder Address

/-! ## Storage roots -/

/-- The slots of an account in the database as `computeStorageRoot` collects
them. -/
def committedStorage (d : Db) (addr : Address) : Fmap Hash Hash :=
  (d.items (storagePrefixKey addr)).foldl (fun m e =>
    if (storagePrefixKey addr).length < e.1.length then
      m.insert (StateDB.wordOf (e.1.drop (storagePrefixKey addr).length))
        (if 32 ≤ e.2.length then StateDB.wordOf e.2 else zeroHash)
    else m) ∅

/-- The committed slots with the dirty ones on top. -/
def overlaidStorage (d : Db) (addr : Address) (dirty : Fmap Hash Hash) : Fmap Hash Hash :=
  dirty.toList.foldl (fun m e => m.insert e.1 e.2) (committedStorage d addr)

/-- The sorted keys, each followed by its value. -/
def storageMessage (storage : Fmap Hash Hash) : Bytes :=
  storage.toList.flatMap fun e => e.1.toList ++ e.2.toList

/-- The root of a set of slots, zero if there is none. -/
def storageRootOf (c : Crypto) (storage : Fmap Hash Hash) : Hash :=
  if storage.isEmpty then zeroHash else c.keccak256 (storageMessage storage)

def computeStorageRoot (c : Crypto) (d : Db) (addr : Address) (dirty : Fmap Hash Hash) : Hash :=
  storageRootOf c (overlaidStorage d addr dirty)

namespace StateDB

/-! ## Before-images -/

/-- The account part of a before-image, if the height has none yet. -/
def saveAccountImage (d : Db) (images : Fmap Address AccountBeforeImage) (addr : Address) :
    Fmap Address AccountBeforeImage :=
  if images.contains addr then images
  else images.insert addr { account := (loadRecord d addr).toOption, storage := ∅ }

def saveSlotImages (d : Db) (addr : Address) (storage : Fmap Hash Hash) (keys : List Hash) :
    Fmap Hash Hash :=
  keys.foldl (fun m key =>
    if m.contains key then m
    else m.insert key (storedSlot d addr key)) storage

/-- The storage part. An address without an account part gets one that says
there was no account. -/
def saveStorageImage (d : Db) (images : Fmap Address AccountBeforeImage)
    (e : Address × Fmap Hash Hash) : Fmap Address AccountBeforeImage :=
  let image := (images[e.1]?).getD { account := none, storage := ∅ }
  images.insert e.1 { image with storage := saveSlotImages d e.1 image.storage e.2.keys }

def saveBeforeImages (s : StateDB) (height : UInt64) : StateDB :=
  if 0 < height ∧ ¬ (s.dirtyAccounts.isEmpty ∧ s.dirtyStorage.isEmpty) then
    let images := s.dirtyAccounts.keys.foldl (saveAccountImage s.db)
      ((s.history.beforeImages[height]?).getD ∅)
    let images := s.dirtyStorage.toList.foldl (saveStorageImage s.db) images
    { s with history := { s.history with
        beforeImages := s.history.beforeImages.insert height images } }
  else s

/-- `RecordModificationLocked`, called for a positive height only. -/
def recordModification (s : StateDB) (height : UInt64) (addr : Address) : StateDB :=
  if 0 < height then
    { s with history := { s.history with
        modificationLog := s.history.modificationLog.insert height
          (((s.history.modificationLog[height]?).getD []) ++ [addr])
        addressRefs := s.history.addressRefs.insert addr
          (((s.history.addressRefs[addr]?).getD 0) + 1)
        addressLastModified :=
          if ((s.history.addressLastModified[addr]?).getD 0) < height then
            s.history.addressLastModified.insert addr height
          else s.history.addressLastModified } }
  else s

/-! ## Staging -/

/-- What a commit has put together so far. -/
structure Stage where
  state : StateDB
  batch : List BatchOp
  pendingCache : List (Address × Ref)
  verkleUpdates : List (Bytes × Bytes)

/-- Nothing staged yet. -/
def Stage.start (s : StateDB) : Stage :=
  { state := s, batch := [], pendingCache := [], verkleUpdates := [] }

/-- An error and the state it leaves. -/
abbrev Failure := StateErr × StateDB

/-- The messages hashed for the storage root of a set of slots. -/
def storageKeccaks (storage : Fmap Hash Hash) : List Bytes :=
  if storage.isEmpty then [] else [storageMessage storage]

/-- The account with the root of its dirty slots over the committed ones, if
it has dirty slots. -/
def withStorageRoot (c : Crypto) (s : StateDB) (addr : Address) (acc : Account) : Account :=
  match s.dirtyStorage[addr]? with
  | some dirty => { acc with storageRoot := computeStorageRoot c s.db addr dirty }
  | none => acc

/-- The messages hashed for it. -/
def rootKeccaks (s : StateDB) (addr : Address) : List Bytes :=
  match s.dirtyStorage[addr]? with
  | some dirty => storageKeccaks (overlaidStorage s.db addr dirty)
  | none => []

/-- One dirty account. Its storage root is written through the pointer
before anything can fail. -/
def stageAccount (c : Crypto) (height : UInt64) (st : Stage) (e : Address × Ref) :
    Except Failure Stage :=
  let s := st.state
  match s.heap.read e.2 with
  -- a dangling pointer; no state of the program has one
  | none => .ok st
  | some acc =>
    let acc := s.withStorageRoot c e.1 acc
    let s := { s with heap := s.heap.write e.2 acc, keccaks := s.keccaks ++ s.rootKeccaks e.1 }
    match encodeAccount acc with
    | .error err => .error (.marshalAccount e.1 err, s)
    | .ok data => .ok
        { state := s.recordModification height e.1
          batch := st.batch ++ [(accountKey e.1, some data)]
          pendingCache := st.pendingCache ++ [e]
          verkleUpdates := st.verkleUpdates ++ [(e.1.toList, data)] }

def stageCode (st : Stage) : Stage :=
  { st with
    state := { st.state with pendingCodeWrites := ∅ }
    batch := st.batch ++
      st.state.pendingCodeWrites.toList.map fun e => (codeKey e.1, some e.2) }

/-- The dirty slots of one address. An account that is not dirty itself gets
its new storage root in a copy; if there is no account, the slots are
written and no root covers them. -/
def stageStorage (c : Crypto) (st : Stage) (e : Address × Fmap Hash Hash) :
    Except Failure Stage :=
  let s := st.state
  let st := { st with
    batch := st.batch ++ e.2.toList.map fun kv => (storageKey e.1 kv.1, some kv.2.toList) }
  if s.dirtyAccounts.contains e.1 then .ok st
  else
    match s.getAccountLocked e.1 with
    | .error _ => .ok st
    | .ok acc =>
      let updated := { acc with storageRoot := computeStorageRoot c s.db e.1 e.2 }
      let s := { s with
        keccaks := s.keccaks ++ storageKeccaks (overlaidStorage s.db e.1 e.2) }
      match encodeAccount updated with
      | .error err => .error (.marshalStorageRoot e.1 err, s)
      | .ok data => .ok
          { state := { s with heap := (s.heap.alloc updated).2 }
            batch := st.batch ++ [(accountKey e.1, some data)]
            pendingCache := st.pendingCache ++ [(e.1, (s.heap.alloc updated).1)]
            verkleUpdates := st.verkleUpdates ++ [(e.1.toList, data)] }

/-- Everything that comes before the batch is written. -/
def stage (c : Crypto) (ch : CommitChoice) (s : StateDB) (height : UInt64) :
    Except Failure Stage := do
  let s := s.saveBeforeImages height
  let st ← (s.dirtyAccounts.range ch.accounts).foldlM (stageAccount c height) (Stage.start s)
  (s.dirtyStorage.range ch.storage).foldlM (stageStorage c) (stageCode st)

/-! ## The account cache -/

/-- `evictLRULocked`: down to nine tenths of the limit, at least one entry. -/
def evictLRULocked (o : RangeOrder Address) (cacheMaxSize : Nat) (cache : Fmap Address Ref) :
    Fmap Address Ref :=
  ((o.order cache.keys).take (max 1 (cache.size - cacheMaxSize * 9 / 10))).foldl
    (fun m addr => m.erase addr) cache

def addToCacheLocked (o : RangeOrder Address) (s : StateDB) (e : Address × Ref) : StateDB :=
  let cache := if s.cacheMaxSize ≤ s.accountCache.size then
    evictLRULocked o s.cacheMaxSize s.accountCache else s.accountCache
  { s with accountCache := cache.insert e.1 e.2 }

def addAllToCache (ch : CommitChoice) (s : StateDB) (pendingCache : List (Address × Ref)) :
    StateDB :=
  pendingCache.zipIdx.foldl (fun s e => addToCacheLocked (ch.evict e.2) s e.1) s

/-! ## The tree and the second batch -/

/-- The `Put`s of a commit up to the first error, and whether there was none. -/
def putAccounts (c : Crypto) (pdb : Kv) : VerkleTree → List (Bytes × Bytes) → VerkleTree × Bool
  | t, [] => (t, true)
  | t, u :: us =>
    match t.put c.sha3 pdb u.1 u.2 with
    | .ok t' => putAccounts c pdb t' us
    | .error _ => (t, false)

def rootLocked (s : StateDB) : Hash := s.stateTrie.root

/-- The marker goes; root and, for a block, height are written. -/
def postBatch (root : Hash) (height : UInt64) : List BatchOp :=
  [(commitPendingKey, none), (lastCommittedRootKey, some root.toList)] ++
    if 0 < height then [(lastCommittedHeightKey, some (bigEndian 8 height.toNat))] else []

/-- The dirty state goes only if the tree has taken all updates. -/
def clearDirty (s : StateDB) : StateDB :=
  { s with dirtyAccounts := ∅, dirtyStorage := ∅, pendingCodeWrites := ∅ }

def endCommit (s : StateDB) : StateDB :=
  { s with storageCache := ∅, tx := emptyTxState, snapshots := [] }

/-- The tree updates of a commit and what depends on them. -/
def updateTree (c : Crypto) (s : StateDB) (height : UInt64) (updates : List (Bytes × Bytes)) :
    StateDB :=
  let (t, ok) := putAccounts c s.db.view s.stateTrie updates
  if ok then
    let (d, t) := t.flush s.db
    { s with db := d.write (postBatch t.root height), stateTrie := t }.clearDirty
  else { s with stateTrie := t }

/-- The batch of a commit with the commit-pending marker. -/
def Stage.ops (st : Stage) : List BatchOp := st.batch ++ [(commitPendingKey, some [1])]

/-- Everything that follows the staging. -/
def publish (c : Crypto) (ch : CommitChoice) (height : UInt64) (st : Stage) : StateDB :=
  let s := { st.state with db := st.state.db.write st.ops }
  let s := addAllToCache ch s st.pendingCache
  (updateTree c s height st.verkleUpdates).endCommit

/-- `Commit`; the height is zero if the caller gives none. -/
def commit (c : Crypto) (ch : CommitChoice) (s : StateDB) (height : UInt64) :
    StateDB × Except StateErr Hash :=
  match s.lastError with
  | some e => ({ s with lastError := none }, .error (.commitAborted e))
  | none =>
    match stage c ch s height with
    | .error (e, s) => (s, .error e)
    | .ok st =>
      let s := publish c ch height st
      (s, .ok s.rootLocked)

end StateDB

end Qau
