import Qau.Evidence
import Qau.ValidatorManager

/-!
# The voting manager

A translation of the vote sets, the double-sign detector and the two ways a
vote reaches them in `voting.go`. There is a vote set for each block hash of a
height and round, with a threshold that is fixed when the set is made; the
detector keeps one vote for each validator, height and round.

A call is atomic. What it asks of its surroundings comes with it: whether the
signature verifies under the registered key, whether the validator is
blacklisted, whether the slashing manager accepts the evidence, the clock, and
the order in which a map is visited when old entries are evicted. The copy of
accepted votes to the attestation store and the finality map are left out.
-/

namespace Qau.Voting

open Consensus (Vote SlashingEvidence)
open Validators (ValidatorManager ValidatorInfo)

def quorumThresholdNumerator : Int := 2

def quorumThresholdDenominator : Int := 3

def maxDoubleSignVoteHistory : Int := 100000

def maxDoubleSignEvidence : Nat := 1000

def maxEvidenceQueue : Nat := 10000

inductive VoteError where
  | nonValidator
  | validatorSlashed
  | blacklisted
  | invalidSignature
  | blockMismatch
  | duplicateVote
  | doubleSign
  | submitFailed
deriving DecidableEq

/-! ## The detector -/

structure DoubleSignDetector where
  voteHistory : List Vote
  voteCount : Int
  evidence : List SlashingEvidence

/-- Two votes of one validator at one height and round. -/
def sameKey (v w : Vote) : Bool :=
  v.validatorAddr = w.validatorAddr && v.height = w.height && v.round = w.round

/-- The order in which entries leave the heap. -/
def older (v w : Vote) : Bool := v.height < w.height || v.height = w.height && v.round ≤ w.round

namespace DoubleSignDetector

variable (d : DoubleSignDetector)

def pruneOldestLocked (order : RangeOrder Vote) (n : Int) : DoubleSignDetector :=
  if n ≤ 0 then d
  else
    let sorted := (order.order d.voteHistory).mergeSort older
    { d with
      voteHistory := sorted.drop n.toNat
      voteCount := d.voteCount - min n sorted.length }

def checkAndRecordVote (order : RangeOrder Vote) (clock : Int) (vote : Vote) :
    Except VoteError Unit × DoubleSignDetector :=
  match d.voteHistory.find? (sameKey vote) with
  | some existing =>
    if existing.blockHash ≠ vote.blockHash then
      let evidence := d.evidence ++
        [⟨.doubleSigning, vote.validatorAddr, vote.height, some existing, some vote, 0, clock⟩]
      (.error .doubleSign,
        { d with
          evidence := if evidence.length > maxDoubleSignEvidence
            then evidence.drop (maxDoubleSignEvidence / 2) else evidence })
    else (.error .duplicateVote, d)
  | none =>
    let recorded := { d with voteHistory := d.voteHistory ++ [vote], voteCount := d.voteCount + 1 }
    (.ok (), if recorded.voteCount > maxDoubleSignVoteHistory
      then recorded.pruneOldestLocked order (recorded.voteCount - maxDoubleSignVoteHistory * 9 / 10)
      else recorded)

def pruneVoteHistory (keepAbove : UInt64) : DoubleSignDetector :=
  let kept := d.voteHistory.filter fun v => !(v.height < keepAbove)
  { d with
    voteHistory := kept
    voteCount := d.voteCount - (d.voteHistory.length - kept.length) }

end DoubleSignDetector

/-! ## Vote sets -/

structure VoteSet where
  blockHash : Hash
  votes : Fmap Address Vote
  weight : Int
  threshold : Int

/-- Two thirds of the total stake, rounded up. -/
def quorumThreshold (totalStake : Int) : Int :=
  let product := totalStake * quorumThresholdNumerator
  if product % quorumThresholdDenominator ≠ 0 then product / quorumThresholdDenominator + 1
  else product / quorumThresholdDenominator

def newVoteSet (blockHash : Hash) (totalStake : Int) : VoteSet :=
  ⟨blockHash, ∅, 0, quorumThreshold totalStake⟩

namespace VoteSet

variable (vs : VoteSet)

def addVote (d : DoubleSignDetector) (order : RangeOrder Vote) (clock : Int) (vote : Vote) (stake : Int) :
    Except VoteError VoteSet × DoubleSignDetector :=
  if vote.blockHash ≠ vs.blockHash then (.error .blockMismatch, d)
  else if vs.votes.contains vote.validatorAddr then (.error .duplicateVote, d)
  else match d.checkAndRecordVote order clock vote with
    | (.error e, d') => (.error e, d')
    | (.ok _, d') =>
      (.ok { vs with
        votes := vs.votes.insert vote.validatorAddr vote
        weight := vs.weight + stake }, d')

def hasQuorum : Bool := vs.threshold ≠ 0 && vs.threshold ≤ vs.weight

end VoteSet

/-! ## The manager -/

/-- `ValidatorManager.TotalStake`. -/
def totalStake (validators : Fmap Address ValidatorInfo) : Int :=
  (validators.toList.map fun e => if e.2.active then e.2.stake else 0).sum

structure VotingManager where
  validators : ValidatorManager
  voteSets : Fmap UInt64 (Fmap UInt32 (Fmap Hash VoteSet))
  doubleSignDetector : DoubleSignDetector
  /-- Whether a slashing manager is set. -/
  slashingManager : Bool
  evidenceQueue : List SlashingEvidence

def newVotingManager (validators : ValidatorManager) : VotingManager :=
  ⟨validators, ∅, ⟨[], 0, []⟩, false, []⟩

/-- What a call leaves behind: its answer, the evidence that the slashing
manager took, and the manager. -/
structure Outcome where
  reply : Except VoteError Bool
  submitted : Option SlashingEvidence
  vm : VotingManager

namespace VotingManager

variable (vm : VotingManager)

def getSet (height : UInt64) (round : UInt32) (hash : Hash) : Option VoteSet :=
  vm.voteSets[height]?.bind fun rounds => rounds[round]?.bind fun sets => sets[hash]?

def putSet (height : UInt64) (round : UInt32) (hash : Hash) (vs : VoteSet) : VotingManager :=
  let rounds := vm.voteSets.getD height ∅
  let sets := rounds.getD round ∅
  { vm with voteSets := vm.voteSets.insert height (rounds.insert round (sets.insert hash vs)) }

/-- A full queue loses its oldest entry. -/
def queueEvidence (evidence : SlashingEvidence) : VotingManager :=
  { vm with
    evidenceQueue := (if vm.evidenceQueue.length ≥ maxEvidenceQueue
      then vm.evidenceQueue.tail else vm.evidenceQueue) ++ [evidence] }

/-- The part under the lock that both calls share: the vote set is made if
there is none, and the vote goes to it and to the detector. With a double
vote comes its evidence. -/
def tally (order : RangeOrder Vote) (clock : Int) (vote : Vote) (stake : Int) :
    Except VoteError Bool × Option SlashingEvidence × VotingManager :=
  let vs := (vm.getSet vote.height vote.round vote.blockHash).getD
    (newVoteSet vote.blockHash (totalStake vm.validators.validators))
  match vs.addVote vm.doubleSignDetector order clock vote stake with
  | (.error e, d) =>
    (.error e, if e = .doubleSign then d.evidence.getLast? else none,
      { vm.putSet vote.height vote.round vote.blockHash vs with doubleSignDetector := d })
  | (.ok vs', d) =>
    (.ok vs'.hasQuorum, none,
      { vm.putSet vote.height vote.round vote.blockHash vs' with doubleSignDetector := d })

/-- The evidence goes to the slashing manager, or to the queue if there is
none or it refuses. -/
def deliver (evidence : SlashingEvidence) (accepted : Bool) : Option SlashingEvidence × VotingManager :=
  if vm.slashingManager && accepted then (some evidence, vm) else (none, vm.queueEvidence evidence)

/-- The checks of `AddVote` in front of the tally. -/
def voteCheck (vote : Vote) (signed blacklisted : Bool) : Except VoteError ValidatorInfo :=
  match vm.validators.validators[vote.validatorAddr]? with
  | none => .error .nonValidator
  | some info =>
    if !info.active then .error .nonValidator
    else if info.permanentlySlashed then .error .validatorSlashed
    else if blacklisted then .error .blacklisted
    else if !signed then .error .invalidSignature
    else .ok info

def addVote (order : RangeOrder Vote) (clock : Int) (vote : Vote) (signed blacklisted accepted : Bool) :
    Outcome :=
  match vm.voteCheck vote signed blacklisted with
  | .error e => ⟨.error e, none, vm⟩
  | .ok info =>
    match vm.tally order clock vote info.stake with
    | (reply, none, vm') => ⟨reply, none, vm'⟩
    | (reply, some evidence, vm') =>
      let (submitted, vm'') := vm'.deliver evidence accepted
      ⟨if vm.slashingManager && !accepted then .error .submitFailed else reply, submitted, vm''⟩

/-- The source returns nil; the answer here is the one of the vote set. -/
def recordAttestationVote (order : RangeOrder Vote) (clock : Int) (vote : Vote) (stake : Int)
    (accepted : Bool) : Outcome :=
  match vm.tally order clock vote stake with
  | (reply, none, vm') => ⟨reply, none, vm'⟩
  | (reply, some evidence, vm') =>
    let (submitted, vm'') := vm'.deliver evidence accepted
    ⟨reply, submitted, vm''⟩

def pruneOldVotes (keepAbove : UInt64) : VotingManager :=
  { vm with voteSets := vm.voteSets.filter fun height _ => !(height < keepAbove) }

end VotingManager

end Qau.Voting
