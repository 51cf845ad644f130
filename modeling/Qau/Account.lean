import Qau.VerkleNode

/-!
# Accounts and the keys of the state database

The data of `qaudb/state/state_db.go` that ends up in the database: the
account record with its fixed-width codec, and the keys under which
account, storage and code records and the three control records stand.
The first byte of a key tells the kinds of record apart.
-/

namespace Qau

open Std (TransOrd LawfulEqOrd)

/-! ## Ordered keys -/

instance byteArrOrd {n : Nat} : Ord (ByteArr n) := ⟨fun a b => compare a.toList b.toList⟩

instance byteArrTransOrd {n : Nat} : TransOrd (ByteArr n) where
  eq_swap := Std.OrientedOrd.eq_swap (α := Bytes)
  isLE_trans := Std.TransOrd.isLE_trans (α := Bytes)

instance byteArrLawfulEqOrd {n : Nat} : LawfulEqOrd (ByteArr n) where
  compare_self := Std.ReflOrd.compare_self (α := Bytes)
  eq_of_compare h := List.Vector.eq _ _ (Std.LawfulEqOrd.eq_of_compare (α := Bytes) h)

/-- `types.Address`. -/
abbrev Address := ByteArr 20

instance addressTransOrd : TransOrd Address := byteArrTransOrd

instance hashTransOrd : TransOrd Hash := byteArrTransOrd

structure StorageCacheKey where
  addr : Address
  key : Hash
deriving DecidableEq

namespace StorageCacheKey

/-- The two fields in one byte string, which orders the keys. -/
def bytes (k : StorageCacheKey) : Bytes := k.addr.toList ++ k.key.toList

instance : Ord StorageCacheKey := ⟨fun a b => compare a.bytes b.bytes⟩

instance : TransOrd StorageCacheKey where
  eq_swap := Std.OrientedOrd.eq_swap (α := Bytes)
  isLE_trans := Std.TransOrd.isLE_trans (α := Bytes)

end StorageCacheKey

/-! ## Accounts -/

/-- The errors of the state layer; the comments give the source's texts. -/
inductive StateErr where
  /-- `ErrAccountNotFound`: "account not found" -/
  | accountNotFound
  /-- "encodeAccount: balance exceeds 256-bit limit (bitLen=%d)" -/
  | balanceExceedsLimit (bitLen : Nat)
  /-- "data too short to decode account" -/
  | dataTooShort
  /-- "amount must be positive" -/
  | amountNotPositive
  /-- "insufficient balance" -/
  | insufficientBalance
  /-- "failed to load account %x: %w" -/
  | loadFailed (addr : Address) (cause : StateErr)
  /-- "SetNonce(%x): %w" -/
  | setNonce (addr : Address) (cause : StateErr)
  /-- "SetBalance(%x): %w" -/
  | setBalance (addr : Address) (cause : StateErr)
  /-- "SetCode(%x): %w" -/
  | setCode (addr : Address) (cause : StateErr)
  /-- "state_db: RevertToSnapshot(%d) referenced an unknown snapshot (stack depth %d)" -/
  | unknownSnapshot (id : Int) (depth : Nat)
  /-- "state_db: Commit aborted due to prior silent mutation error: %w" -/
  | commitAborted (cause : StateErr)
  /-- "failed to marshal account %x: %w" -/
  | marshalAccount (addr : Address) (cause : StateErr)
  /-- "failed to marshal account %x for storage root update: %w" -/
  | marshalStorageRoot (addr : Address) (cause : StateErr)
deriving DecidableEq

structure Account where
  nonce : UInt64
  balance : Int
  storageRoot : Hash
  codeHash : Hash
deriving DecidableEq

def newAccount : Account := { nonce := 0, balance := 0, storageRoot := zeroHash, codeHash := zeroHash }

/-- `big.Int.BitLen` of a magnitude. -/
def bitLen (n : Nat) : Nat := if n = 0 then 0 else n.log2 + 1

/-- `encodeAccount`. `FillBytes` writes the magnitude: the sign of the
balance is lost. -/
def encodeAccount (acc : Account) : Except StateErr Bytes :=
  if 256 < bitLen acc.balance.natAbs then
    .error (.balanceExceedsLimit (bitLen acc.balance.natAbs))
  else
    .ok (bigEndian 8 acc.nonce.toNat ++ bigEndian 32 acc.balance.natAbs ++
      acc.storageRoot.toList ++ acc.codeHash.toList)

def decodeAccount (data : Bytes) : Except StateErr Account :=
  if data.length < 104 then .error .dataTooShort
  else
    .ok { nonce := UInt64.ofNat (ofBigEndian (data.take 8))
          balance := ofBigEndian ((data.drop 8).take 32)
          storageRoot := copyInto 32 ((data.drop 40).take 32)
          codeHash := copyInto 32 ((data.drop 72).take 32) }

/-! ## Database keys -/

/-- `accountPrefix` followed by the address. -/
def accountKey (addr : Address) : Bytes := 0x61 :: addr.toList

/-- What the keys of an account's storage records start with. -/
def storagePrefixKey (addr : Address) : Bytes := 0x73 :: (addr.toList ++ [0xFF])

def storageKey (addr : Address) (key : Hash) : Bytes := storagePrefixKey addr ++ key.toList

/-- `codePrefix` followed by the code hash. -/
def codeKey (codeHash : Hash) : Bytes := 0x63 :: codeHash.toList

def commitPendingKey : Bytes :=
  [0x5f, 0x63, 0x6f, 0x6d, 0x6d, 0x69, 0x74, 0x5f, 0x70, 0x65, 0x6e, 0x64, 0x69, 0x6e, 0x67, 0x5f]

def lastCommittedRootKey : Bytes :=
  [0x5f, 0x6c, 0x61, 0x73, 0x74, 0x5f, 0x63, 0x6f, 0x6d, 0x6d, 0x69, 0x74, 0x74, 0x65, 0x64, 0x5f,
    0x72, 0x6f, 0x6f, 0x74, 0x5f]

def lastCommittedHeightKey : Bytes :=
  [0x5f, 0x6c, 0x61, 0x73, 0x74, 0x5f, 0x63, 0x6f, 0x6d, 0x6d, 0x69, 0x74, 0x74, 0x65, 0x64, 0x5f,
    0x68, 0x65, 0x69, 0x67, 0x68, 0x74, 0x5f]

end Qau
