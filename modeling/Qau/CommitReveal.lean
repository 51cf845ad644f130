import Qau.TxValidator

/-!
# Commit and reveal

Model of `CommitRevealManager` of `txpool/frontrun_protection.go`. The two
maps of the source share their commitments; a commitment's mark `Consumed`
is only read through the map by hash, so the copies in the lists by sender
carry it unused. SHA3-256 is a parameter.
-/

namespace Qau.Txpool

structure CommitRevealConfig where
  commitTimeoutBlocks : UInt64
  minRevealBlocks : UInt64
  maxPendingCommits : Int
  maxGlobalCommits : Int
  enabled : Bool
  thresholdValue : Option Int

def defaultCommitRevealConfig : CommitRevealConfig where
  commitTimeoutBlocks := 75
  minRevealBlocks := 1
  maxPendingCommits := 10
  maxGlobalCommits := 100000
  enabled := true
  thresholdValue := some (10 ^ 19)

structure Commitment where
  commitHash : Hash
  sender : Address
  blockHeight : UInt64
  consumed : Bool := false

structure CommitRevealManager where
  commits : Fmap Hash Commitment := ∅
  commitsBySender : Fmap Address (List Commitment) := ∅
  currentBlockHeight : UInt64 := 0
  revealedTxHashes : Fmap Hash Bool := ∅
  revealOrder : List Hash := []
  config : CommitRevealConfig := defaultCommitRevealConfig

def errCommitExpired : String := "commit has expired"
def errCommitAlreadyUsed : String := "commit already revealed"
def errInvalidReveal : String := "reveal does not match commit"
def errCommitmentRequired : String :=
  "transaction requires commitment for front-running protection"
def errInvalidSalt : String := "reveal transaction must carry a 32-byte salt in Data"
def errGlobalCommitLimit : String := "global commit limit exceeded"
def errTooManyCommits : String := "too many pending commits"

def crv2SaltLen : Nat := 32
def maxRevealedTxHashes : Nat := 100000

def computeCommitHash (sha3 : Bytes → Hash) (recipient : Address) (value : Option Int)
    (salt : Bytes) : Hash :=
  sha3 (recipient.toList ++ bigEndian 32 (value.getD 0).natAbs ++ salt)

namespace CommitRevealManager

/-- `expiredLocked`. -/
def expired (m : CommitRevealManager) (c : Commitment) : Bool :=
  c.blockHeight + m.config.commitTimeoutBlocks < m.currentBlockHeight

/-- `evictRevealedLocked`. -/
def evictRevealed (m : CommitRevealManager) : CommitRevealManager :=
  if maxRevealedTxHashes < m.revealedTxHashes.size then
    let evictCount := m.revealedTxHashes.size - maxRevealedTxHashes
    { m with
      revealedTxHashes :=
        (m.revealOrder.take evictCount).foldl (fun r h => r.erase h) m.revealedTxHashes
      revealOrder := m.revealOrder.drop evictCount }
  else m

/-- `cleanupExpiredCommitsLocked`. -/
def cleanupExpiredCommits (m : CommitRevealManager) (sender : Address) : CommitRevealManager :=
  let commits := m.commitsBySender.getD sender []
  let active := commits.filter fun c => !m.expired c
  { m with
    commits := (commits.filter m.expired).foldl (fun cs c => cs.erase c.commitHash) m.commits
    commitsBySender :=
      if active = [] then m.commitsBySender.erase sender
      else m.commitsBySender.insert sender active }

/-- `CleanupExpired`, with the number of commitments it drops. -/
def cleanupExpired (m : CommitRevealManager) : Nat × CommitRevealManager :=
  let live := m.commits.filter fun _ c => !m.expired c
  (m.commits.size - live.size,
    evictRevealed
      { m with
        commits := live
        commitsBySender := m.commitsBySender.filterMap fun _ commits =>
          let active := commits.filter fun c => !m.expired c
          if active = [] then none else some active })

/-- `SetBlockHeight`: the height never moves backwards. -/
def setBlockHeight (m : CommitRevealManager) (height : UInt64) : CommitRevealManager :=
  if m.currentBlockHeight < height then { m with currentBlockHeight := height } else m

/-- The commitment as `RegisterCommitment` enters it. -/
def record (m : CommitRevealManager) (commitHash : Hash) (sender : Address) :
    CommitRevealManager :=
  let commit : Commitment := ⟨commitHash, sender, m.currentBlockHeight + 1, false⟩
  { m with
    commits := m.commits.insert commitHash commit
    commitsBySender :=
      m.commitsBySender.insert sender (m.commitsBySender.getD sender [] ++ [commit]) }

def registerCommitment (m : CommitRevealManager) (commitHash : Hash) (sender : Address) :
    Option String × CommitRevealManager :=
  let pending (m : CommitRevealManager) : Int := (m.commitsBySender.getD sender []).length
  if m.commits.contains commitHash then (none, m)
  else if 0 < m.config.maxGlobalCommits ∧ m.config.maxGlobalCommits ≤ m.commits.size then
    (some errGlobalCommitLimit, m)
  else if m.config.maxPendingCommits ≤ pending m then
    let m := m.cleanupExpiredCommits sender
    if m.config.maxPendingCommits ≤ pending m then (some errTooManyCommits, m)
    else (none, m.record commitHash sender)
  else (none, m.record commitHash sender)

def requiresCommitment (m : CommitRevealManager) (value : Option Int) : Bool :=
  match value, m.config.thresholdValue with
  | some v, some t => m.config.enabled && t ≤ v
  | _, _ => false

def isTxRevealed (m : CommitRevealManager) (txHash : Hash) : Bool :=
  m.revealedTxHashes.getD txHash false

/-- `CheckReveal`; an expired commitment is dropped. -/
def checkReveal (sha3 : Bytes → Hash) (m : CommitRevealManager) (tx : Transaction) :
    Option String × CommitRevealManager :=
  if tx.data.length ≠ crv2SaltLen then (some errInvalidSalt, m)
  else
    match tx.toAddr with
    | none => (some errInvalidReveal, m)
    | some recipient =>
      let commitHash := computeCommitHash sha3 recipient tx.value tx.data
      match m.commits[commitHash]? with
      | none => (some errCommitmentRequired, m)
      | some commit =>
        if commit.sender ≠ tx.fromAddr then (some errInvalidReveal, m)
        else if commit.consumed then (some errCommitAlreadyUsed, m)
        else if m.expired commit then
          (some errCommitExpired, { m with commits := m.commits.erase commitHash })
        else (none, m)

/-- The commitment marked as used, and the transaction as revealed. -/
def consume (m : CommitRevealManager) (commitHash txHash : Hash) (commit : Commitment) :
    CommitRevealManager :=
  evictRevealed
    { m with
      commits := m.commits.insert commitHash { commit with consumed := true }
      revealOrder :=
        if m.revealedTxHashes.contains txHash then m.revealOrder else m.revealOrder ++ [txHash]
      revealedTxHashes := m.revealedTxHashes.insert txHash true }

def consumeReveal (sha3 : Bytes → Hash) (m : CommitRevealManager) (tx : Transaction) :
    Bool × CommitRevealManager :=
  match tx.toAddr with
  | none => (false, m)
  | some recipient =>
    if tx.data.length ≠ crv2SaltLen then (false, m)
    else
      let commitHash := computeCommitHash sha3 recipient tx.value tx.data
      match m.commits[commitHash]? with
      | none => (false, m)
      | some commit =>
        if commit.consumed ∨ commit.sender ≠ tx.fromAddr then (false, m)
        else if m.expired commit then
          (false, { m with commits := m.commits.erase commitHash })
        else if m.currentBlockHeight = 0 ∨ commit.blockHeight = 0 then (false, m)
        else if m.currentBlockHeight - commit.blockHeight < m.config.minRevealBlocks then
          (false, m)
        else (true, m.consume commitHash (txHash sha3 tx) commit)

def hasCommitmentFor (sha3 : Bytes → Hash) (m : CommitRevealManager) (tx : Transaction) : Bool :=
  match tx.toAddr with
  | none => false
  | some recipient =>
    tx.data.length = crv2SaltLen &&
      m.commits[computeCommitHash sha3 recipient tx.value tx.data]?.any fun commit =>
        !commit.consumed && commit.sender = tx.fromAddr && !m.expired commit

end CommitRevealManager

end Qau.Txpool
