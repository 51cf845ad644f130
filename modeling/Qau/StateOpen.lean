import Qau.StateCommit

/-!
# Opening a state database

`RecoverConsistency` and `OpenStateDB` of `qaudb/state/state_db.go`. A new
instance reads the tree from the database; if the commit-pending marker is
there, the last commit may have stopped half-way, and the tree is rebuilt
from the account records. The rebuilt root must be the one that the last
complete commit has stored, or the instance does not open.
-/

namespace Qau

/-- The errors of `RecoverConsistency`. -/
inductive RecoverErr where
  /-- "malformed account key (address length %d, want %d)" -/
  | malformedKey (length : Nat)
  /-- "failed to rebuild Verkle tree for account %x: %w" -/
  | rebuildFailed (addr : Bytes)
  /-- "iterator error: %w" -/
  | iterator
  /-- "rebuilt Verkle root %x does not match last committed root %x" -/
  | rootMismatch (rebuilt persisted : Hash)
deriving DecidableEq

def accountPrefix : Bytes := [0x61]

/-- A record whose length is that of a fixed-width value. -/
def Db.fixed (d : Db) (n : Nat) (key : Bytes) : Option (ByteArr n) :=
  match d.get key with
  | some data => if h : data.length = n then some ⟨data, h⟩ else none
  | none => none

namespace StateDB

/-- The loop over the account records. -/
def rebuildTree (c : Crypto) (pdb : Kv) :
    VerkleTree → List (Bytes × Bytes) → Except RecoverErr VerkleTree
  | t, [] => .ok t
  | t, e :: es =>
    if e.1.length ≤ accountPrefix.length then rebuildTree c pdb t es
    else
      let addr := e.1.drop accountPrefix.length
      if addr.length ≠ 20 then .error (.malformedKey addr.length)
      else
        match t.put c.sha3 pdb addr e.2 with
        | .ok t' => rebuildTree c pdb t' es
        | .error _ => .error (.rebuildFailed addr)

/-- The stored height, if there is one. -/
def restoreHeight (s : StateDB) : StateDB :=
  match s.db.fixed 8 lastCommittedHeightKey with
  | some data => { s with history := { s.history with
      lastCommittedHeight := UInt64.ofNat (ofBigEndian data.toList) } }
  | none => s

/-- The tree starts from what is on disk, not from an empty one. -/
def recoverConsistency (c : Crypto) (s : StateDB) : StateDB × Except RecoverErr Unit :=
  let s := s.restoreHeight
  match s.db.get commitPendingKey with
  | none => (s, .ok ())
  | some _ =>
    match rebuildTree c s.db.view (openVerkleTree c.sha3 s.db s.stateTrie.hashed)
        (s.db.iterator accountPrefix) with
    | .error e => (s, .error e)
    | .ok t =>
      if s.db.truncated accountPrefix then (s, .error .iterator)
      else
        let s := { s with stateTrie := t }
        let done := ({ s with db := s.db.write [(commitPendingKey, none)] }, .ok ())
        match s.db.fixed 32 lastCommittedRootKey with
        | some persisted =>
          if s.rootLocked = persisted then done
          else (s, .error (.rootMismatch s.rootLocked persisted))
        | none => done

/-- `OpenStateDB`. -/
def openDB (c : Crypto) (d : Db) (hashed keccaks : List Bytes) : Except RecoverErr StateDB :=
  match (alloc c d hashed keccaks).recoverConsistency c with
  | (s, .ok ()) => .ok s
  | (_, .error e) => .error e

end StateDB

end Qau
