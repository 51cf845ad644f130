import Qau.QposReanchor
import Qau.Tally

/-!
# Justification and finalization

The writers of the four checkpoint fields: the vote tally of
`tryUpdateFinality`, the adoption of the checkpoints that a block header
carries, and the restore from disk (`consensus/qpos_finality.go`). Each
comes with the lemma that says what it can do to the state; every invariant
of the checkpoint is derived from those.
-/

namespace Qau.Consensus

/-! ## Weights -/

/-- `EffectiveBalanceIncrement`, one QAU. -/
def effectiveBalanceIncrement : Int := 10 ^ 18

/-- `MaxEffectiveBalance`, 2048 QAU. -/
def maxEffectiveBalance : Int := 2048 * 10 ^ 18

def effectiveBalance (stake : Option Int) : Int :=
  match stake with
  | none => 0
  | some s =>
    if s ≤ 0 then 0
    else
      let eb := s.tdiv effectiveBalanceIncrement * effectiveBalanceIncrement
      if eb > maxEffectiveBalance then maxEffectiveBalance else eb

def minAttestations : Nat := 3

/-- `ComputeMinAttestations`, for a count that is not negative. -/
def computeMinAttestations (validatorCount : Nat) : Nat :=
  if validatorCount = 0 then minAttestations
  else if (validatorCount + 1) / 2 < minAttestations then minAttestations
  else (validatorCount + 1) / 2

namespace QPOS

variable (env : Env) (q : QPOS)

def consensusWeight (stake : Option Int) (epoch : Epoch) : Int :=
  if q.weightedProposerCutover ≤ epoch then effectiveBalance stake else stake.getD 0

/-- The validators that count: not slashed and active, with their index. -/
def activeValidators : List (Validator × Nat) :=
  q.validators.zipIdx.filter fun e => decide ((e.2 : Int) ∉ q.slashedValidators) && e.1.active

/-- The denominator of the finality ratio. -/
def totalWeight (epoch : Epoch) : Int :=
  (q.activeValidators.map fun e => q.consensusWeight e.1.stake epoch).sum

/-- The validator behind an index, if there is one. -/
def validatorAt (idx : Int) : Option Validator :=
  if idx < 0 then none else q.validators[idx.toNat]?

/-- The weight of the validator behind an index. -/
def weightOf (epoch : Epoch) (idx : Int) : Int :=
  match q.validatorAt idx with
  | none => 0
  | some v => q.consensusWeight v.stake epoch

/-! ## The tally -/

/-- The checks that an attestation stored for `slot` has to pass to count
for `prevEpoch`. Indices are in range by the time an attestation is stored;
a negative one would not index the Go slice. -/
def counts (prevEpoch : Epoch) (slot : Slot) (att : Attestation) : Bool :=
  att.target.epoch = prevEpoch
    && att.source.epoch < att.target.epoch
    && att.source.epoch ≤ q.justifiedEpoch
    && (att.source.epoch = 0 || (q.getEpochBlockRoot att.source.epoch ≠ zeroHash
      && att.source.root = q.getEpochBlockRoot att.source.epoch))
    && q.getEpochBlockRoot prevEpoch ≠ zeroHash
    && att.target.root = q.getEpochBlockRoot prevEpoch
    && (match q.slotBlockRoots[slot]? with
      | none => true
      | some slotRoot => slotRoot ≠ zeroHash && att.beaconBlockRoot = slotRoot)
    && att.validatorIndex ∉ q.slashedValidators
    && (match q.validatorAt att.validatorIndex with
      | none => false
      | some v => v.active)

def slotsOf (epoch : Epoch) : List Slot :=
  (List.range 32).map fun i => epochStartSlot epoch + UInt64.ofNat i

def storedAt (slot : Slot) : List Attestation := (q.attestations[slot]?).getD []

/-- The distinct validators that voted for `prevEpoch`, with their weight. -/
def tally (prevEpoch : Epoch) : List Int × Int :=
  (slotsOf prevEpoch).foldl (fun acc slot =>
    ((q.storedAt slot).filter (q.counts prevEpoch slot)).foldl
      (tallyStep Attestation.validatorIndex (q.weightOf prevEpoch)) acc) ([], 0)

/-- The part of `tryUpdateFinality` behind the two thirds: the previous epoch
becomes justified, and the epoch that was justified until now becomes final
if it is the one before. -/
def advanceCheckpoints (prevEpoch : Epoch) : QPOS :=
  let oldJustified := q.justifiedEpoch
  let oldJustifiedRoot := q.getEpochBlockRoot oldJustified
  let q' := if prevEpoch > q.justifiedEpoch then
      { q with
        justifiedEpoch := prevEpoch
        justifiedRoot := q.getEpochBlockRoot prevEpoch
        finalityPersistPending := true }
    else q
  if oldJustifiedRoot ≠ zeroHash ∧ oldJustified = prevEpoch - 1 then
    if oldJustified > q'.finalizedEpoch then
      { q' with
        finalizedEpoch := oldJustified
        finalizedRoot := oldJustifiedRoot
        finalityPersistPending := true }
    else if oldJustified = q'.finalizedEpoch ∧ q'.finalizedRoot = zeroHash then
      { q' with finalizedRoot := oldJustifiedRoot, finalityPersistPending := true }
    else q'
  else q'

/-- Enough validators, and two thirds of the weight. -/
def supermajority (prevEpoch : Epoch) : Bool :=
  let (attesters, attestedWeight) := q.tally prevEpoch
  computeMinAttestations q.activeValidators.length ≤ attesters.length
    && q.totalWeight prevEpoch * 2 ≤ attestedWeight * 3

def tryUpdateFinality : QPOS :=
  let currentEpoch := q.currentFinalityEpoch env
  if currentEpoch < 2 then q
  else
    let prevEpoch := currentEpoch - 1
    if q.totalWeight prevEpoch ≤ 0 then q
    else if q.activeValidators.length = 0 then q
    else if !q.supermajority prevEpoch then q
    else (q.advanceCheckpoints prevEpoch).pinFinalizedCheckpointSlot.persistFinality env

end QPOS

/-! ## Headers -/

def headerFinalityCheckpointsValid (justifiedEpoch finalizedEpoch headerEpoch : Epoch) : Bool :=
  justifiedEpoch ≤ headerEpoch && finalizedEpoch ≤ headerEpoch

def adoptCheckpointRoot (recorded : Hash) (epoch : Epoch) (headerHash : Hash) : Hash :=
  if recorded ≠ zeroHash then recorded else if epoch = 0 then zeroHash else headerHash

namespace QPOS

variable (env : Env) (q : QPOS)

def adoptJustified (justifiedEpoch : Epoch) (headerHash : Hash) : QPOS :=
  if justifiedEpoch > q.justifiedEpoch then
    { q with
      justifiedEpoch := justifiedEpoch
      justifiedRoot :=
        adoptCheckpointRoot (q.getEpochBlockRoot justifiedEpoch) justifiedEpoch headerHash }
  else q

def adoptFinalized (finalizedEpoch : Epoch) (headerHash : Hash) : QPOS :=
  if finalizedEpoch > q.finalizedEpoch then
    { q with
      finalizedEpoch := finalizedEpoch
      finalizedRoot :=
        adoptCheckpointRoot (q.getEpochBlockRoot finalizedEpoch) finalizedEpoch headerHash }
  else q

def adoptHeaderFinality (justifiedEpoch finalizedEpoch : Epoch) (headerHash : Hash) : QPOS :=
  let q' := (q.adoptJustified justifiedEpoch headerHash).adoptFinalized finalizedEpoch headerHash
  if justifiedEpoch > q.justifiedEpoch ∨ finalizedEpoch > q.finalizedEpoch then
    ({ q' with finalityPersistPending := true }).pinFinalizedCheckpointSlot.persistFinality env
  else q'

def setFinalityPersistCallback : QPOS :=
  let q' := { q with finalityPersist := true }
  let q' := if !q'.hasCanonicalFinalityRoots then { q' with finalityPersistPending := true } else q'
  q'.persistFinality env

end QPOS

/-! ## Restore -/

/-- The errors of `RestoreFinalityState`. -/
inductive RestoreError where
  /-- "finalized epoch %d exceeds justified epoch %d" -/
  | finalizedExceedsJustified (finalizedEpoch justifiedEpoch : Epoch)
  /-- "equal checkpoints have different roots" -/
  | equalCheckpointsDiffer
  /-- "justified root is zero" -/
  | justifiedRootZero
  /-- "finalized root is zero" -/
  | finalizedRootZero
  /-- "checkpoint is older than local state" -/
  | older
  /-- "conflicting justified root" -/
  | conflictingJustifiedRoot
  /-- "conflicting finalized root" -/
  | conflictingFinalizedRoot
  /-- "conflicting genesis root" -/
  | conflictingGenesisRoot
  /-- "conflicting epoch-zero roots" -/
  | conflictingEpochZeroRoots
deriving DecidableEq

/-- The checks of `RestoreFinalityState` on the record alone. -/
def FinalityState.check (st : FinalityState) : Except RestoreError Unit :=
  if st.finalizedEpoch > st.justifiedEpoch then
    .error (.finalizedExceedsJustified st.finalizedEpoch st.justifiedEpoch)
  else if st.finalizedEpoch = st.justifiedEpoch ∧ st.justifiedEpoch > 0 ∧
      st.justifiedRoot ≠ st.finalizedRoot then .error .equalCheckpointsDiffer
  else if st.justifiedEpoch > 0 ∧ st.justifiedRoot = zeroHash then .error .justifiedRootZero
  else if st.finalizedEpoch > 0 ∧ st.finalizedRoot = zeroHash then .error .finalizedRootZero
  else .ok ()

namespace QPOS

variable (q : QPOS)

/-- `restoredGenesisRoot`: the root to register for epoch 0, or zero. -/
def restoredGenesisRoot (epoch : Epoch) (root : Hash) : Except RestoreError Hash :=
  if epoch ≠ 0 ∨ root = zeroHash then .ok zeroHash
  else if q.getEpochBlockRoot 0 ≠ zeroHash ∧ q.getEpochBlockRoot 0 ≠ root then
    .error .conflictingGenesisRoot
  else .ok root

/-- The checks of `RestoreFinalityState` against the local state. -/
def checkRestore (st : FinalityState) : Except RestoreError (Hash × Hash) :=
  if st.justifiedEpoch < q.justifiedEpoch ∨ st.finalizedEpoch < q.finalizedEpoch then .error .older
  else if q.justifiedEpoch > 0 ∧ st.justifiedEpoch = q.justifiedEpoch ∧
      st.justifiedRoot ≠ q.justifiedRoot then .error .conflictingJustifiedRoot
  else if q.finalizedEpoch > 0 ∧ st.finalizedEpoch = q.finalizedEpoch ∧
      st.finalizedRoot ≠ q.finalizedRoot then .error .conflictingFinalizedRoot
  else match q.restoredGenesisRoot st.justifiedEpoch st.justifiedRoot with
    | .error e => .error e
    | .ok justifiedGenesisRoot =>
      match q.restoredGenesisRoot st.finalizedEpoch st.finalizedRoot with
      | .error e => .error e
      | .ok finalizedGenesisRoot =>
        if st.justifiedEpoch = 0 ∧ st.finalizedEpoch = 0 ∧ st.justifiedRoot ≠ zeroHash ∧
            st.finalizedRoot ≠ zeroHash ∧ st.justifiedRoot ≠ st.finalizedRoot then
          .error .conflictingEpochZeroRoots
        else .ok (justifiedGenesisRoot, finalizedGenesisRoot)

/-- `registerRestoredCheckpointRootsLocked`. -/
def registerRestoredCheckpointRoots : QPOS :=
  let roots := if q.justifiedEpoch > 0 ∧ q.justifiedRoot ≠ zeroHash then
    q.epochBlockRoots.insert q.justifiedEpoch q.justifiedRoot else q.epochBlockRoots
  let roots := if q.finalizedEpoch > 0 ∧ q.finalizedRoot ≠ zeroHash then
    roots.insert q.finalizedEpoch q.finalizedRoot else roots
  let q' := { q with epochBlockRoots := roots }
  if q'.hasCanonicalFinalityRoots then { q' with finalityPersistPending := false } else q'

/-- Registers a genesis root at epoch 0 and slot 0. -/
def registerGenesis (root : Hash) : QPOS :=
  { q with
    epochBlockRoots := q.epochBlockRoots.insert 0 root
    slotBlockRoots := q.slotBlockRoots.insert 0 root }

def restoreFinalityState (st : FinalityState) : Except RestoreError QPOS :=
  match st.check with
  | .error e => .error e
  | .ok () =>
    match q.checkRestore st with
    | .error e => .error e
    | .ok (justifiedGenesisRoot, finalizedGenesisRoot) =>
      let q' := ({ q with
        justifiedEpoch := st.justifiedEpoch
        justifiedRoot := st.justifiedRoot
        finalizedEpoch := st.finalizedEpoch
        finalizedRoot := st.finalizedRoot }).registerRestoredCheckpointRoots
      let q' := if justifiedGenesisRoot ≠ zeroHash then q'.registerGenesis justifiedGenesisRoot
        else q'
      .ok (if finalizedGenesisRoot ≠ zeroHash ∧ q'.getEpochBlockRoot 0 = zeroHash then
        q'.registerGenesis finalizedGenesisRoot else q')

end QPOS

end Qau.Consensus
