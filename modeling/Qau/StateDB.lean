import Qau.Account
import Qau.Heap
import Qau.VerkleStore

/-!
# The state database

`StateDB` of `qaudb/state/state_db.go`: an account is looked for in the
dirty map, in the account cache and in the database, a storage slot in the
dirty slots, the slot cache and the database. The dirty map and the cache
hold pointers, and a setter writes through the pointer it has found, so
the two share objects; this is why accounts live on a `Heap`. Snapshots
hold deep copies, which nobody else can reach, and are kept by value.

Everything here is single-threaded: the mutexes of the source are left
out, and so are access times, statistics and log lines. `keccaks` is a
ghost field, the messages hashed with Keccak-256 so far.
-/

namespace Qau

/-- The hash functions of the state layer: SHA3-256 in the tree,
`Keccak256Hash` for code and storage roots. -/
structure Crypto where
  sha3 : Bytes → Hash
  keccak256 : Bytes → Hash

/-! ## Data -/

structure Log where
  address : Address
  topics : List Hash
  data : Bytes
  blockNumber : UInt64
  txHash : Hash
  txIndex : UInt64
  blockHash : Hash
  index : UInt64
deriving DecidableEq

/-- The warm addresses and slots of the transaction (EIP-2929). -/
structure AccessList where
  addresses : Fmap Address Unit
  slots : Fmap Address (Fmap Hash Unit)

namespace AccessList

def addAddress (al : AccessList) (addr : Address) : AccessList :=
  { al with addresses := al.addresses.insert addr () }

def addSlot (al : AccessList) (addr : Address) (slot : Hash) : AccessList :=
  { al.addAddress addr with
    slots := al.slots.insert addr (((al.slots[addr]?).getD ∅).insert slot ()) }

def addressWarm (al : AccessList) (addr : Address) : Bool := al.addresses.contains addr

def slotWarm (al : AccessList) (addr : Address) (slot : Hash) : Bool × Bool :=
  if al.addressWarm addr then (true, ((al.slots[addr]?).getD ∅).contains slot)
  else (false, false)

end AccessList

/-- The values of a two-level map, zero where nothing is set. -/
def slotValue (m : Fmap Address (Fmap Hash Hash)) (addr : Address) (key : Hash) : Hash :=
  (((m[addr]?).getD ∅)[key]?).getD zeroHash

/-- `m[addr][key] = value` with the inner map made on demand. -/
def setSlot (m : Fmap Address (Fmap Hash Hash)) (addr : Address) (key value : Hash) :
    Fmap Address (Fmap Hash Hash) :=
  m.insert addr (((m[addr]?).getD ∅).insert key value)

/-- What belongs to one transaction. -/
structure TxState where
  accessList : AccessList
  logs : List Log
  selfDestructs : Fmap Address Unit
  selfDestructBeneficiaries : Fmap Address Address
  transientStorage : Fmap Address (Fmap Hash Hash)

/-- `clearTxStateLocked`. -/
def emptyTxState : TxState :=
  { accessList := ⟨∅, ∅⟩, logs := [], selfDestructs := ∅, selfDestructBeneficiaries := ∅
    transientStorage := ∅ }

/-- `stateSnapshot`: deep copies, so plain values. -/
structure StateSnapshot where
  dirtyAccounts : Fmap Address Account
  dirtyStorage : Fmap Address (Fmap Hash Hash)
  storageCache : Fmap StorageCacheKey Hash
  pendingCodeWrites : Fmap Hash Bytes
  tx : TxState

structure AccountBeforeImage where
  account : Option Account
  storage : Fmap Hash Hash

/-- What `RollbackToHeight` and pruning keep per block height. -/
structure History where
  beforeImages : Fmap UInt64 (Fmap Address AccountBeforeImage)
  historyRetentionBlocks : UInt64
  lastCommittedHeight : UInt64
  modificationLog : Fmap UInt64 (List Address)
  addressRefs : Fmap Address UInt64
  addressLastModified : Fmap Address UInt64

structure StateDB where
  db : Db
  heap : Heap Account
  dirtyAccounts : Fmap Address Ref
  dirtyStorage : Fmap Address (Fmap Hash Hash)
  pendingCodeWrites : Fmap Hash Bytes
  accountCache : Fmap Address Ref
  cacheMaxSize : Nat
  storageCache : Fmap StorageCacheKey Hash
  stateTrie : VerkleTree
  history : History
  tx : TxState
  snapshots : List StateSnapshot
  lastError : Option StateErr
  keccaks : List Bytes

abbrev maxSnapshotDepth : Nat := 1024

namespace StateDB

/-- `allocStateDB`: a new instance over a database. -/
def alloc (c : Crypto) (d : Db) (hashed keccaks : List Bytes) : StateDB where
  db := d
  heap := ⟨[]⟩
  dirtyAccounts := ∅
  dirtyStorage := ∅
  pendingCodeWrites := ∅
  accountCache := ∅
  cacheMaxSize := 5000
  storageCache := ∅
  stateTrie := openVerkleTree c.sha3 d hashed
  history :=
    { beforeImages := ∅, historyRetentionBlocks := 1000, lastCommittedHeight := 0
      modificationLog := ∅, addressRefs := ∅, addressLastModified := ∅ }
  tx := emptyTxState
  snapshots := []
  lastError := none
  keccaks

/-! ## Accounts -/

/-- The object that stands for an address in memory. -/
def pointer (s : StateDB) (addr : Address) : Option Ref :=
  (s.dirtyAccounts[addr]?).or s.accountCache[addr]?

/-- The account record of a database. -/
def loadRecord (d : Db) (addr : Address) : Except StateErr Account :=
  match d.get (accountKey addr) with
  | none => .error .accountNotFound
  | some data => decodeAccount data

def getAccountLocked (s : StateDB) (addr : Address) : Except StateErr Account :=
  match s.pointer addr with
  | some r =>
    match s.heap.read r with
    | some acc => .ok acc
    -- a dangling pointer; no state of the program has one
    | none => .error .accountNotFound
  | none => loadRecord s.db addr

def getAccount (s : StateDB) (addr : Address) : Except StateErr Account := s.getAccountLocked addr

def getNonce (s : StateDB) (addr : Address) : UInt64 :=
  match s.getAccount addr with
  | .ok acc => acc.nonce
  | .error _ => 0

def getBalance (s : StateDB) (addr : Address) : Int :=
  match s.getAccount addr with
  | .ok acc => acc.balance
  | .error _ => 0

/-- What a setter works on: the account, or a new one if there is none. -/
def loadAccount (s : StateDB) (addr : Address) : Except StateErr Account :=
  match s.getAccountLocked addr with
  | .error .accountNotFound => .ok newAccount
  | result => result

/-- The end of a setter: the loaded object gets its new contents and goes
into the dirty map. -/
def mutate (s : StateDB) (addr : Address) (acc : Account) : StateDB :=
  match s.pointer addr with
  | some r => { s with heap := s.heap.write r acc, dirtyAccounts := s.dirtyAccounts.insert addr r }
  | none =>
    { s with
      heap := (s.heap.alloc acc).2
      dirtyAccounts := s.dirtyAccounts.insert addr (s.heap.alloc acc).1 }

/-- The first silent error is kept for `Commit`. -/
def recordError (s : StateDB) (e : StateErr) : StateDB :=
  { s with lastError := s.lastError.or (some e) }

def setAccount (s : StateDB) (addr : Address) (acc : Account) : StateDB :=
  { s with
    heap := (s.heap.alloc acc).2
    dirtyAccounts := s.dirtyAccounts.insert addr (s.heap.alloc acc).1 }

def setNonce (s : StateDB) (addr : Address) (nonce : UInt64) : StateDB :=
  match s.loadAccount addr with
  | .error e => s.recordError (.setNonce addr e)
  | .ok acc => s.mutate addr { acc with nonce }

def setBalance (s : StateDB) (addr : Address) (balance : Int) : StateDB :=
  match s.loadAccount addr with
  | .error e => s.recordError (.setBalance addr e)
  | .ok acc => s.mutate addr { acc with balance }

def addBalance (s : StateDB) (addr : Address) (amount : Int) : Except StateErr StateDB :=
  if amount ≤ 0 then .error .amountNotPositive
  else
    match s.loadAccount addr with
    | .error e => .error (.loadFailed addr e)
    | .ok acc => .ok (s.mutate addr { acc with balance := acc.balance + amount })

/-- Unlike `AddBalance` this loads the account before it looks at the amount. -/
def subBalance (s : StateDB) (addr : Address) (amount : Int) : Except StateErr StateDB :=
  match s.loadAccount addr with
  | .error e => .error (.loadFailed addr e)
  | .ok acc =>
    if amount ≤ 0 then .error .amountNotPositive
    else if acc.balance - amount < 0 then .error .insufficientBalance
    else .ok (s.mutate addr { acc with balance := acc.balance - amount })

def addBalanceReturn (s : StateDB) (addr : Address) (amount : Int) : Int × StateDB :=
  if amount ≤ 0 then (s.getBalance addr, s)
  else
    match s.loadAccount addr with
    | .error _ => (0, s)
    | .ok acc =>
      (acc.balance + amount, s.mutate addr { acc with balance := acc.balance + amount })

def incrementNonce (s : StateDB) (addr : Address) : StateDB :=
  match s.loadAccount addr with
  | .error _ => s
  | .ok acc => s.mutate addr { acc with nonce := acc.nonce + 1 }

/-! ## Storage -/

/-- A value that `copy` takes from a record into a fixed-width word. -/
def wordOf (data : Bytes) : Hash := copyInto 32 data

/-- The value of a slot in the database, zero if there is no record. -/
def storedSlot (d : Db) (addr : Address) (key : Hash) : Hash :=
  ((d.get (storageKey addr key)).map wordOf).getD zeroHash

/-- The value of a slot, and the state with the slot cached. -/
def getStorageLocked (s : StateDB) (addr : Address) (key : Hash) : Hash × StateDB :=
  match ((s.dirtyStorage[addr]?).getD ∅)[key]? with
  | some value => (value, s)
  | none =>
    match s.storageCache[(⟨addr, key⟩ : StorageCacheKey)]? with
    | some value => (value, s)
    | none =>
      let value := storedSlot s.db addr key
      (value, { s with storageCache := s.storageCache.insert ⟨addr, key⟩ value })

def getStorage (s : StateDB) (addr : Address) (key : Hash) : Hash :=
  (s.getStorageLocked addr key).1

theorem getStorage_eq (s : StateDB) (addr : Address) (key : Hash) :
    s.getStorage addr key = ((((s.dirtyStorage[addr]?).getD ∅)[key]?).or
      s.storageCache[(⟨addr, key⟩ : StorageCacheKey)]?).getD (storedSlot s.db addr key) := by
  unfold getStorage getStorageLocked
  cases ((s.dirtyStorage[addr]?).getD ∅)[key]? with
  | some value => rfl
  | none => cases s.storageCache[(⟨addr, key⟩ : StorageCacheKey)]? <;> rfl

def setStorage (s : StateDB) (addr : Address) (key value : Hash) : StateDB :=
  { s with dirtyStorage := setSlot s.dirtyStorage addr key value }

/-! ## Code -/

def getCodeByHash (s : StateDB) (codeHash : Hash) : Option Bytes :=
  (s.pendingCodeWrites[codeHash]?).or (s.db.get (codeKey codeHash))

/-- `none` is the nil slice. -/
def getCode (s : StateDB) (addr : Address) : Option Bytes :=
  match s.getAccount addr with
  | .error _ => none
  | .ok acc => if acc.codeHash = zeroHash then none else s.getCodeByHash acc.codeHash

/-- The code is staged also when the account cannot be loaded. -/
def setCode (c : Crypto) (s : StateDB) (addr : Address) (code : Bytes) : StateDB :=
  let codeHash := c.keccak256 code
  let s := { s with
    pendingCodeWrites := s.pendingCodeWrites.insert codeHash code
    keccaks := s.keccaks ++ [code] }
  match s.loadAccount addr with
  | .error e => s.recordError (.setCode addr e)
  | .ok acc => s.mutate addr { acc with codeHash }

/-! ## The state of the transaction -/

def addAddressToAccessList (s : StateDB) (addr : Address) : StateDB :=
  { s with tx := { s.tx with accessList := s.tx.accessList.addAddress addr } }

def addSlotToAccessList (s : StateDB) (addr : Address) (slot : Hash) : StateDB :=
  { s with tx := { s.tx with accessList := s.tx.accessList.addSlot addr slot } }

def addressInAccessList (s : StateDB) (addr : Address) : Bool := s.tx.accessList.addressWarm addr

def slotInAccessList (s : StateDB) (addr : Address) (slot : Hash) : Bool × Bool :=
  s.tx.accessList.slotWarm addr slot

def addLog (s : StateDB) (log : Log) : StateDB :=
  { s with tx := { s.tx with logs := s.tx.logs ++ [log] } }

def getLogs (s : StateDB) : List Log := s.tx.logs

def selfDestruct (s : StateDB) (addr : Address) : StateDB :=
  { s with tx := { s.tx with selfDestructs := s.tx.selfDestructs.insert addr () } }

/-- The first call for an address decides. -/
def selfDestructToBeneficiary (s : StateDB) (addr beneficiary : Address) : StateDB :=
  if s.tx.selfDestructs.contains addr then s
  else
    { s with
      tx := { s.tx with
        selfDestructs := s.tx.selfDestructs.insert addr ()
        selfDestructBeneficiaries := s.tx.selfDestructBeneficiaries.insert addr beneficiary } }

def hasSelfDestructed (s : StateDB) (addr : Address) : Bool := s.tx.selfDestructs.contains addr

def getTransientState (s : StateDB) (addr : Address) (key : Hash) : Hash :=
  slotValue s.tx.transientStorage addr key

def setTransientState (s : StateDB) (addr : Address) (key value : Hash) : StateDB :=
  { s with tx := { s.tx with
      transientStorage := setSlot s.tx.transientStorage addr key value } }

def clearTxState (s : StateDB) : StateDB := { s with tx := emptyTxState }

/-! ## Snapshots -/

/-- The entry that `Snapshot` puts on the stack. -/
def capture (s : StateDB) : StateSnapshot :=
  { dirtyAccounts := s.heap.values s.dirtyAccounts, dirtyStorage := s.dirtyStorage
    storageCache := s.storageCache, pendingCodeWrites := s.pendingCodeWrites, tx := s.tx }

def snapshot (s : StateDB) : Int × StateDB :=
  if maxSnapshotDepth ≤ s.snapshots.length then (-1, s)
  else (s.snapshots.length, { s with snapshots := s.snapshots ++ [s.capture] })

/-- The restoring half of `RevertToSnapshot`. Neither the account cache nor
the recorded error goes back. -/
def restore (s : StateDB) (snap : StateSnapshot) : StateDB :=
  { s with
    heap := (s.heap.allocAll snap.dirtyAccounts).1
    dirtyAccounts := (s.heap.allocAll snap.dirtyAccounts).2
    dirtyStorage := snap.dirtyStorage
    storageCache := snap.storageCache
    pendingCodeWrites := snap.pendingCodeWrites
    tx := snap.tx }

/-- An id above the stack leaves everything alone and makes the next `Commit`
fail; a negative one goes back to the outermost entry. -/
def revertToSnapshot (s : StateDB) (id : Int) : StateDB :=
  match s.snapshots[id.toNat]? with
  | some snap => { s.restore snap with snapshots := s.snapshots.take id.toNat }
  | none => s.recordError (.unknownSnapshot id s.snapshots.length)

def releaseSnapshot (s : StateDB) (id : Int) : StateDB :=
  if id < 0 ∨ (s.snapshots.length : Int) ≤ id then s
  else { s with snapshots := s.snapshots.take id.toNat }

/-- `Revert`: everything that is not committed goes, the slot cache apart. -/
def revert (s : StateDB) : StateDB :=
  { s with
    dirtyAccounts := ∅, dirtyStorage := ∅, pendingCodeWrites := ∅, lastError := none
    snapshots := [], accountCache := ∅, tx := emptyTxState }

end StateDB

end Qau
