import Qau.Evidence

/-!
# The consensus engine's state and its root bookkeeping

The fields of `QPOS` that finality, attestations and reorgs read and write,
and the functions that maintain the canonical roots: the epoch roots with
their immutable finalized entry and their pruning, the slot roots with
theirs, the pin of the finalized checkpoint's slot, and the durable copy of
the checkpoint. Every call runs under `q.mu`, so a call is one step. The
QTD seal engine and the voting manager's mirror of the checkpoint are not
part of the model; the fields `currentEpoch` and `currentSlot`, which the
pruning code reads, are never written by the source and stay zero, so their
branches are left out.

What a call sees from outside the engine is an `Env`. Each function comes
with the lemmas that say which fields it touches.
-/

namespace Qau.Consensus

/-! ## State -/

/-- `Validator`, with the fields that weights and signatures use; the stake
is a nil-able `big.Int`. -/
structure Validator where
  address : Address
  publicKeyBytes : Bytes
  stake : Option Int
  active : Bool
deriving DecidableEq

/-- `ValidatorKeyState`: the session keys of a rotated validator. -/
structure ValidatorKeyState where
  sessionPubKey : Option Bytes
  activationEpoch : Epoch
  pendingPubKey : Option Bytes
  pendingEpoch : Epoch
  revoked : Bool
deriving DecidableEq

/-- The checkpoint fields as the durable callback gets them. -/
structure FinalityState where
  justifiedEpoch : Epoch
  finalizedEpoch : Epoch
  justifiedRoot : Hash
  finalizedRoot : Hash
deriving DecidableEq

/-- `finalizedCheckpointPin`. -/
structure CheckpointPin where
  root : Hash
  slot : Slot
deriving DecidableEq

/-- `QPOS`. `submitted` collects the evidence handed to the slashing
manager's `SubmitEvidence`, and `persisted` is what the durable store holds. -/
structure QPOS where
  validators : List Validator
  slashedValidators : Finset Int
  weightedProposerCutover : Epoch
  attestations : Fmap Slot (List Attestation)
  validatorAttestations : Fmap Int (Fmap Slot Attestation)
  attestationSources : Fmap Epoch Checkpoint
  justifiedEpoch : Epoch
  justifiedRoot : Hash
  finalizedEpoch : Epoch
  finalizedRoot : Hash
  epochBlockRoots : Fmap Epoch Hash
  slotBlockRoots : Fmap Slot Hash
  epochVRFAccumulator : Fmap Epoch Hash
  finalizedSlotPin : CheckpointPin
  finalityPersist : Bool
  finalityPersistPending : Bool
  persisted : Option FinalityState
  lastKnownBlockTime : Int
  vkReg : Fmap Address ValidatorKeyState
  currentKeyVersion : UInt64
  slashingManager : Bool
  evidenceQueue : List SlashingEvidence
  submitted : List SlashingEvidence

/-- `NewQPOS`: empty maps and the genesis checkpoint. -/
def newQPOS (validators : List Validator) (cutover : Epoch) : QPOS where
  validators := validators
  slashedValidators := ∅
  weightedProposerCutover := cutover
  attestations := ∅
  validatorAttestations := ∅
  attestationSources := ∅
  justifiedEpoch := 0
  justifiedRoot := zeroHash
  finalizedEpoch := 0
  finalizedRoot := zeroHash
  epochBlockRoots := ∅
  slotBlockRoots := ∅
  epochVRFAccumulator := ∅
  finalizedSlotPin := ⟨zeroHash, 0⟩
  finalityPersist := false
  finalityPersistPending := false
  persisted := none
  lastKnownBlockTime := 0
  vkReg := ∅
  currentKeyVersion := 0
  slashingManager := false
  evidenceQueue := []
  submitted := []

/-- What a call observes outside the engine: the configured network and
genesis time, the wall clock, the committee election of a large validator
set, the order in which Go ranges over the votes of a validator, and
whether a durable write succeeds. -/
structure Env where
  networkID : UInt64
  genesisTime : Int
  now : Int
  committee : Slot → List Address
  order : RangeOrder Slot
  durable : Bool

/-! ## Slots and epochs -/

def slotsPerEpoch : UInt64 := 32

def slotToEpoch (slot : Slot) : Epoch := slot / slotsPerEpoch

def epochStartSlot (epoch : Epoch) : Slot := epoch * slotsPerEpoch

theorem toNat_slotToEpoch (slot : Slot) : (slotToEpoch slot).toNat = slot.toNat / 32 :=
  UInt64.toNat_div ..

theorem toNat_add_one {a : UInt64} (h : a.toNat + 1 < 2 ^ 64) : (a + 1).toNat = a.toNat + 1 := by
  rw [UInt64.toNat_add, UInt64.toNat_one]
  exact Nat.mod_eq_of_lt h

theorem toNat_add_one_of_lt {a b : UInt64} (h : a < b) : (a + 1).toNat = a.toNat + 1 :=
  toNat_add_one (lt_of_le_of_lt (UInt64.lt_iff_toNat_lt.mp h) b.toNat_lt)

theorem slotToEpoch_mono {s t : Slot} (h : s ≤ t) : slotToEpoch s ≤ slotToEpoch t := by
  rw [UInt64.le_iff_toNat_le, toNat_slotToEpoch, toNat_slotToEpoch]
  exact Nat.div_le_div_right (UInt64.le_iff_toNat_le.mp h)

/-- `GetCurrentSlot`: slots of twelve seconds since genesis by the wall
clock. -/
def getCurrentSlot (env : Env) : Slot :=
  if env.genesisTime = 0 then 0
  else if env.now < env.genesisTime then 0
  else UInt64.ofInt ((env.now - env.genesisTime).tdiv 12)

def getCurrentEpoch (env : Env) : Epoch := getCurrentSlot env / slotsPerEpoch

namespace QPOS

variable (env : Env) (q : QPOS)

/-- The epoch `tryUpdateFinality` works in: from the latest block time, or
from the clock before the first block. -/
def currentFinalityEpoch : Epoch :=
  if 0 < env.genesisTime ∧ env.genesisTime < q.lastKnownBlockTime then
    UInt64.ofInt ((q.lastKnownBlockTime - env.genesisTime).tdiv 12) / slotsPerEpoch
  else getCurrentEpoch env

/-! ## The durable checkpoint -/

/-- `getEpochBlockRootLocked`: the zero hash stands for no root. -/
def getEpochBlockRoot (epoch : Epoch) : Hash := (q.epochBlockRoots[epoch]?).getD zeroHash

/-- One pass of the loop in `hasCanonicalFinalityRootsLocked`. -/
def canonicalCheckpoint (epoch : Epoch) (root : Hash) : Bool :=
  epoch = 0 || (q.getEpochBlockRoot epoch ≠ zeroHash && q.getEpochBlockRoot epoch = root)

/-- `hasCanonicalFinalityRootsLocked`. -/
def hasCanonicalFinalityRoots : Bool :=
  q.canonicalCheckpoint q.justifiedEpoch q.justifiedRoot
    && q.canonicalCheckpoint q.finalizedEpoch q.finalizedRoot

/-- The four checkpoint fields. -/
def finality : FinalityState :=
  ⟨q.justifiedEpoch, q.finalizedEpoch, q.justifiedRoot, q.finalizedRoot⟩

/-- `persistFinalityLocked`: a failed write keeps the pending flag. -/
def persistFinality : QPOS :=
  if !q.finalityPersist then q
  else if !q.hasCanonicalFinalityRoots then { q with finalityPersistPending := true }
  else if !q.finalityPersistPending then q
  else if !env.durable then { q with finalityPersistPending := true }
  else { q with persisted := some q.finality, finalityPersistPending := false }

/-! ## The slot of the finalized checkpoint -/

/-- The highest recorded slot up to `boundary` whose root is `root`; the
map has its slots in order, so the last hit is the highest. -/
def checkpointSlotUpTo (root : Hash) (boundary : Slot) : Option Slot :=
  (q.slotBlockRoots.toList.filter fun e => e.1 ≤ boundary ∧ e.2 = root).getLast?.map Prod.fst

/-- `pinFinalizedCheckpointSlotLocked`. -/
def pinFinalizedCheckpointSlot : QPOS :=
  if q.finalizedRoot = zeroHash then { q with finalizedSlotPin := ⟨zeroHash, 0⟩ }
  else if q.finalizedSlotPin.root = q.finalizedRoot then q
  else match q.checkpointSlotUpTo q.finalizedRoot (q.finalizedEpoch * slotsPerEpoch) with
    | some slot => { q with finalizedSlotPin := ⟨q.finalizedRoot, slot⟩ }
    | none => q

/-- `finalityFloorSlotLocked`. -/
def finalityFloorSlot : Option Slot :=
  if q.finalizedEpoch = 0 ∧ q.finalizedRoot = zeroHash then none
  else some (q.finalizedEpoch * slotsPerEpoch)

/-- `finalizedCheckpointSlotLocked`. -/
def finalizedCheckpointSlot : Option Slot :=
  match q.finalityFloorSlot with
  | none => none
  | some boundary =>
    if q.finalizedRoot = zeroHash then some boundary
    else if q.finalizedSlotPin.root = q.finalizedRoot ∧ q.finalizedSlotPin.slot ≤ boundary then
      some q.finalizedSlotPin.slot
    else some ((q.checkpointSlotUpTo q.finalizedRoot boundary).getD boundary)

/-! ## Epoch roots -/

/-- The guard of `setEpochBlockRootLocked`: a recorded root of the finalized
epoch is immutable, from epoch 1 on. -/
def finalizedRootFixed (epoch : Epoch) (blockRoot : Hash) : Bool :=
  epoch = q.finalizedEpoch && q.finalizedEpoch > 0 && q.getEpochBlockRoot epoch ≠ zeroHash
    && q.getEpochBlockRoot epoch ≠ blockRoot

/-- Records the root and follows it with the checkpoint roots of that epoch. -/
def recordEpochRoot (epoch : Epoch) (blockRoot : Hash) : QPOS :=
  { q with
    epochBlockRoots := q.epochBlockRoots.insert epoch blockRoot
    justifiedRoot := if q.justifiedEpoch = epoch then blockRoot else q.justifiedRoot
    finalizedRoot := if q.finalizedEpoch = epoch then blockRoot else q.finalizedRoot
    finalityPersistPending := q.finalityPersistPending
      || (q.justifiedEpoch = epoch && q.justifiedRoot ≠ blockRoot)
      || (q.finalizedEpoch = epoch && q.finalizedRoot ≠ blockRoot) }

/-- The cutoff of the pruning: the epoch being set, or the one before the
finalized epoch from epoch 2 on, but never above the one before the
justified epoch. -/
def epochPruneCutoff (epoch : Epoch) : Epoch :=
  let cutoff := if q.finalizedEpoch > 1 then q.finalizedEpoch - 1 else epoch
  if q.justifiedEpoch > 1 ∧ q.justifiedEpoch - 1 < cutoff then q.justifiedEpoch - 1 else cutoff

def pruneEpochRoots (epoch : Epoch) : QPOS :=
  if q.epochBlockRoots.size > 10 then
    { q with epochBlockRoots :=
        q.epochBlockRoots.filter fun e _ => !decide (e < q.epochPruneCutoff epoch) }
  else q

/-- `setEpochBlockRootLocked`. -/
def setEpochBlockRoot (epoch : Epoch) (blockRoot : Hash) : QPOS :=
  if q.finalizedRootFixed epoch blockRoot then q
  else
    let q' := q.recordEpochRoot epoch blockRoot
    let q' := if q'.finalityPersistPending then q'.persistFinality env else q'
    q'.pruneEpochRoots epoch

def ensureEpochBlockRoot (epoch : Epoch) (blockRoot : Hash) : QPOS :=
  if (q.epochBlockRoots[epoch]?).isSome then q else q.setEpochBlockRoot env epoch blockRoot

/-- `SetGenesisRoot`: immutable once set. -/
def setGenesisRoot (root : Hash) : QPOS :=
  if q.getEpochBlockRoot 0 ≠ zeroHash then q
  else { q with
    epochBlockRoots := q.epochBlockRoots.insert 0 root
    slotBlockRoots := q.slotBlockRoots.insert 0 root }

/-! ## Slot roots -/

def slotPruneCutoff (slot : Slot) : Slot :=
  if q.finalizedEpoch > 1 then epochStartSlot (q.finalizedEpoch - 1)
  else if slot > 2 * slotsPerEpoch then slot - 2 * slotsPerEpoch else 0

def setSlotBlockRoot (slot : Slot) (blockRoot : Hash) : QPOS :=
  let q' := { q with
    slotBlockRoots := q.slotBlockRoots.insert slot blockRoot
    finalizedSlotPin :=
      if blockRoot ≠ zeroHash ∧ blockRoot = q.finalizedRoot then ⟨blockRoot, slot⟩
      else q.finalizedSlotPin }
  if q'.slotBlockRoots.size > 96 then
    { q' with slotBlockRoots :=
        q'.slotBlockRoots.filter fun s _ => !decide (s < q.slotPruneCutoff slot) }
  else q'

def setLastKnownBlockTime (timestamp : Int) : QPOS :=
  if timestamp ≤ q.lastKnownBlockTime then q else { q with lastKnownBlockTime := timestamp }

end QPOS

end Qau.Consensus
