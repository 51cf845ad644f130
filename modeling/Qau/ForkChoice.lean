import Qau.Account

/-!
# LMD-GHOST fork choice

A translation of `ForkChoice` in `qpos_advanced.go`: the tree of known blocks
with a weight that is kept up to date vote by vote, the walk to the head, and
the pruning at a new finalized root.

Nodes point to each other in the source; here a node holds the hashes of its
parent and its children. The two loops along these pointers have no bound of
their own: slots grow from parent to child, so that a walk has at most
`rounds` rounds or does not end, and `none` is a call that does not return.
The marks `Justified` and `Finalized` of a node and the field `head` are never
read and are left out.
-/

namespace Qau.Ghost

def maxForkChoiceBlocks : Nat := 100000

def maxValidators : Int := 250000

def proposerScoreBoostPercent : Int := 40

structure BlockNode where
  parentHash : Hash
  slot : UInt64
  height : UInt64
  weight : Int
  children : List Hash
deriving DecidableEq

abbrev Blocks := Fmap Hash BlockNode

inductive ForkError where
  | parentNotFound
  | slotNotGreater
  | heightNotGreater
  | limitExceeded
deriving DecidableEq

structure ForkChoice where
  blocks : Blocks
  root : Hash
  justifiedRoot : Hash
  justifiedEpoch : UInt64
  finalizedRoot : Hash
  finalizedEpoch : UInt64
  latestMessages : Fmap Int Hash
  inactiveValidators : Fmap Int Unit
  proposerBoostRoot : Hash
  proposerBoostSlot : UInt64
  proposerBoostWeight : Option Int

def newForkChoice (genesisRoot : Hash) : ForkChoice where
  blocks := (∅ : Blocks).insert genesisRoot ⟨zeroArr 32, 0, 0, 0, []⟩
  root := genesisRoot
  justifiedRoot := genesisRoot
  justifiedEpoch := 0
  finalizedRoot := genesisRoot
  finalizedEpoch := 0
  latestMessages := ∅
  inactiveValidators := ∅
  proposerBoostRoot := zeroArr 32
  proposerBoostSlot := 0
  proposerBoostWeight := none

/-- The longest walk along slots that grow or shrink. -/
def rounds : Nat := 2 ^ 64 + 1

namespace ForkChoice

variable (fc : ForkChoice)

def onBlock (hash parentHash : Hash) (slot height : UInt64) : Except ForkError ForkChoice :=
  if fc.blocks.contains hash then .ok fc
  else match fc.blocks[parentHash]? with
    | none => .error .parentNotFound
    | some parent =>
      if slot ≤ parent.slot then .error .slotNotGreater
      else if height ≤ parent.height then .error .heightNotGreater
      else if fc.blocks.size ≥ maxForkChoiceBlocks then .error .limitExceeded
      else
        let linked := fc.blocks.insert parentHash { parent with children := parent.children ++ [hash] }
        .ok { fc with blocks := linked.insert hash ⟨parentHash, slot, height, 0, []⟩ }

end ForkChoice

/-! ## Weights -/

/-- A weight below zero is set to zero. -/
def BlockNode.addWeight (node : BlockNode) (delta : Int) : BlockNode :=
  { node with weight := if node.weight + delta < 0 then 0 else node.weight + delta }

/-- The loop of `updateWeight`: a block and then its ancestors. -/
def climb (delta : Int) : Nat → Blocks → Hash → Option Blocks
  | 0, _, _ => none
  | fuel + 1, blocks, hash =>
    match blocks[hash]? with
    | none => some blocks
    | some node =>
      let blocks := blocks.insert hash (node.addWeight delta)
      if node.parentHash = zeroArr 32 then some blocks
      else climb delta fuel blocks node.parentHash

namespace ForkChoice

variable (fc : ForkChoice)

def updateWeight (hash : Hash) (delta : Int) : Option ForkChoice :=
  (climb delta rounds fc.blocks hash).map fun blocks => { fc with blocks := blocks }

/-- The checks on a vote before the tree is looked at. -/
def acceptsVote (validatorIdx : Int) (stake : Option Int) : Bool :=
  match stake with
  | none => false
  | some stake => 0 < stake && 0 ≤ validatorIdx && validatorIdx < maxValidators &&
    !fc.inactiveValidators.contains validatorIdx

def onAttestation (validatorIdx : Int) (blockHash : Hash) (stake : Option Int) : Option ForkChoice :=
  if !fc.acceptsVote validatorIdx stake then some fc
  else
    let stake := stake.getD 0
    let voted := { fc with latestMessages := fc.latestMessages.insert validatorIdx blockHash }
    match fc.latestMessages[validatorIdx]? with
    | none => voted.updateWeight blockHash stake
    | some oldHash =>
      if oldHash = blockHash then some fc
      else do
        let removed ← voted.updateWeight oldHash (-stake)
        removed.updateWeight blockHash stake

def setValidatorInactive (validatorIdx : Int) : ForkChoice :=
  { fc with inactiveValidators := fc.inactiveValidators.insert validatorIdx () }

def setValidatorActive (validatorIdx : Int) : ForkChoice :=
  { fc with inactiveValidators := fc.inactiveValidators.erase validatorIdx }

/-! ## The head -/

/-- The proposer boost of a child. -/
def boost (hash : Hash) (slot : UInt64) : Int :=
  if hash = fc.proposerBoostRoot ∧ slot = fc.proposerBoostSlot then fc.proposerBoostWeight.getD 0 else 0

/-- One round of the search for the heaviest child; without a child so far
the weight to beat is -1. -/
def better (best : Option (Hash × Int)) (child : Hash) : Option (Hash × Int) :=
  match fc.blocks[child]? with
  | none => best
  | some node =>
    let childWeight := node.weight + fc.boost child node.slot
    match best with
    | none => if childWeight > -1 then some (child, childWeight) else none
    | some (bestChild, bestWeight) =>
      if childWeight > bestWeight then some (child, childWeight)
      else if childWeight = bestWeight ∧ compare child bestChild = .lt then some (child, bestWeight)
      else best

def bestChild (children : List Hash) : Option Hash := (children.foldl fc.better none).map Prod.fst

/-- The walk down from a block, to a block without children. -/
def follow : Nat → Hash → Option Hash
  | 0, _ => none
  | fuel + 1, current =>
    match fc.blocks[current]? with
    | none => some current
    | some node =>
      match fc.bestChild node.children with
      | none => some current
      | some child => follow fuel child

def getHead : Option Hash :=
  match fc.blocks[fc.justifiedRoot]? with
  | none => some fc.root
  | some _ => fc.follow rounds fc.justifiedRoot

def setProposerBoost (hash : Hash) (slot : UInt64) : ForkChoice :=
  { fc with proposerBoostRoot := hash, proposerBoostSlot := slot, proposerBoostWeight := none }

def setProposerBoostWithWeight (hash : Hash) (slot : UInt64) (totalCommitteeStake : Option Int) :
    ForkChoice :=
  let weight := match totalCommitteeStake with
    | none => none
    | some total => if total ≤ 0 then none else some (total * proposerScoreBoostPercent / 100)
  { fc with proposerBoostRoot := hash, proposerBoostSlot := slot, proposerBoostWeight := weight }

/-! ## Checkpoints -/

def updateJustified (root : Hash) (epoch : UInt64) : ForkChoice :=
  if epoch > fc.justifiedEpoch then { fc with justifiedRoot := root, justifiedEpoch := epoch } else fc

def childrenOf (hash : Hash) : List Hash :=
  match fc.blocks[hash]? with
  | none => []
  | some node => node.children

/-- The blocks that are kept. The queue of the source holds one level of the
tree after the other; a round here takes a whole level. -/
def markDescendants : Nat → List Hash → List Hash → Option (List Hash)
  | 0, _, _ => none
  | fuel + 1, level, keep =>
    if level = [] then some keep
    else markDescendants fuel (level.flatMap fc.childrenOf) (level ++ keep)

def pruneNonFinalized : Option ForkChoice :=
  (fc.markDescendants rounds [fc.root] []).map fun keep =>
    { fc with blocks := fc.blocks.filter fun hash _ => hash ∈ keep }

def updateFinalized (root : Hash) (epoch : UInt64) : Option ForkChoice :=
  if epoch > fc.finalizedEpoch then
    pruneNonFinalized
      { fc with
        finalizedRoot := root
        finalizedEpoch := epoch
        root := if fc.blocks.contains root then root else fc.root }
  else some fc

end ForkChoice

/-! ## Calls -/

inductive Call where
  | onBlock (hash parentHash : Hash) (slot height : UInt64)
  | onAttestation (validatorIdx : Int) (blockHash : Hash) (stake : Option Int)
  | setValidatorInactive (validatorIdx : Int)
  | setValidatorActive (validatorIdx : Int)
  | setProposerBoost (hash : Hash) (slot : UInt64)
  | setProposerBoostWithWeight (hash : Hash) (slot : UInt64) (totalCommitteeStake : Option Int)
  | updateJustified (root : Hash) (epoch : UInt64)
  | updateFinalized (root : Hash) (epoch : UInt64)

/-- The fork choice after a call; a refused block changes nothing. -/
def ForkChoice.call (fc : ForkChoice) : Call → Option ForkChoice
  | .onBlock hash parentHash slot height =>
    match fc.onBlock hash parentHash slot height with
    | .error _ => some fc
    | .ok fc' => some fc'
  | .onAttestation validatorIdx blockHash stake => fc.onAttestation validatorIdx blockHash stake
  | .setValidatorInactive validatorIdx => some (fc.setValidatorInactive validatorIdx)
  | .setValidatorActive validatorIdx => some (fc.setValidatorActive validatorIdx)
  | .setProposerBoost hash slot => some (fc.setProposerBoost hash slot)
  | .setProposerBoostWithWeight hash slot totalCommitteeStake =>
    some (fc.setProposerBoostWithWeight hash slot totalCommitteeStake)
  | .updateJustified root epoch => some (fc.updateJustified root epoch)
  | .updateFinalized root epoch => fc.updateFinalized root epoch

end Qau.Ghost
