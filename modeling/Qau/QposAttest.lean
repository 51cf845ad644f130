import Qau.QposFinality

/-!
# Attestations: admission, slashing checks, creation

`ProcessAttestation` and `CreateAttestation` of `consensus/validator.go`,
with the slashing checks of `consensus/qpos_slashing.go`. A submitted
attestation passes three rounds of checks: `admission` and the signature, the
`form` of the vote, and the comparison with the validator's earlier votes,
which reports conflicts as evidence. What it does to the state is one of
three things (`processAttestation_cases`): nothing but the key registry's
lazy promotion, evidence, or storing the vote and counting again.
-/

namespace Qau.Consensus

/-- The errors of `ProcessAttestation`, with what their texts print. -/
inductive AttestationError where
  /-- `ErrNetworkIDNotConfigured` -/
  | networkIDNotConfigured
  /-- `ErrSlotTooFar` -/
  | slotTooFar
  /-- `ErrSlotInPast` -/
  | slotInPast
  /-- "attestation slot %d (epoch %d) is in a future epoch (current %d)" -/
  | futureEpoch (slot : Slot) (epoch currentEpoch : Epoch)
  /-- "validator index %d out of range [0, %d)" -/
  | indexOutOfRange (index : Int) (validators : Nat)
  /-- `ErrValidatorSlashed` -/
  | validatorSlashed
  /-- `ErrValidatorNotActive` -/
  | validatorNotActive
  /-- `ErrDuplicateAttestation` -/
  | duplicateAttestation
  /-- "empty signature" -/
  | emptySignature
  /-- "validator %d identity is revoked" -/
  | revoked (index : Int)
  /-- "validator %d has no public key bytes" -/
  | noPublicKey (index : Int)
  /-- "invalid public key for validator %d" -/
  | invalidPublicKey (index : Int)
  /-- "Dilithium3 signature verification failed for validator %d" -/
  | signatureFailed (index : Int)
  /-- "target epoch %d does not match slot epoch %d" -/
  | targetEpochMismatch (target slotEpoch : Epoch)
  /-- "source epoch %d must be less than target epoch %d" -/
  | sourceNotBeforeTarget (source target : Epoch)
  /-- "source epoch %d has no canonical root recorded yet" -/
  | sourceRootUnknown (source : Epoch)
  /-- "source root %s does not match canonical root %s for epoch %d" -/
  | sourceRootMismatch (root canonical : Hash) (source : Epoch)
  /-- `ErrNotInCommittee` -/
  | notInCommittee
  /-- `ErrDoubleVote` -/
  | doubleVote
  /-- `ErrSurroundVote` -/
  | surroundVote
  /-- "slashingManager not initialized, evidence queued for later submission" -/
  | evidenceQueued (cause : AttestationError)
deriving DecidableEq

/-! ## Conflicts of two votes -/

/-- The two outcomes of `checkSurroundVote` other than nil. -/
inductive VoteConflict where
  | double
  | surround
deriving DecidableEq

/-- What `checkSurroundVote` finds between a new vote and an earlier one. -/
def conflictKind (att existing : Attestation) : Option VoteConflict :=
  if att.source.epoch = existing.source.epoch ∧ att.source.root ≠ existing.source.root then
    some .double
  else if att.target.epoch = existing.target.epoch ∧ att.target.root ≠ existing.target.root then
    some .double
  else if att.source.epoch < existing.source.epoch ∧
      existing.target.epoch < att.target.epoch then some .surround
  else if existing.source.epoch < att.source.epoch ∧
      att.target.epoch < existing.target.epoch then some .surround
  else none

def maxEvidencePerValidator : Nat := 32

def maxEvidenceQueue : Nat := 10000

namespace QPOS

variable (sch : SignatureScheme) (env : Env) (q : QPOS) {existing : Attestation} {w : Validator}

/-! ## Keys -/

def isValidatorRevoked (addr : Address) : Bool :=
  match q.vkReg[addr]? with
  | none => false
  | some entry => entry.revoked

/-- The lazy promotion of a pending session key. -/
def promoteKey (entry : ValidatorKeyState) (epoch : Epoch) : ValidatorKeyState :=
  if entry.pendingPubKey.isSome ∧ entry.pendingEpoch ≤ epoch then
    { entry with
      sessionPubKey := entry.pendingPubKey
      activationEpoch := entry.pendingEpoch
      pendingPubKey := none
      pendingEpoch := 0 }
  else entry

/-- `EffectiveSessionPubKey`, with the registry after the promotion. -/
def effectiveSessionPubKey (addr : Address) (epoch : Epoch) :
    Option Bytes × Fmap Address ValidatorKeyState :=
  match q.vkReg[addr]? with
  | none => (none, q.vkReg)
  | some entry =>
    if entry.revoked then (none, q.vkReg)
    else
      let entry := promoteKey entry epoch
      (if entry.activationEpoch ≤ epoch then entry.sessionPubKey else none,
        q.vkReg.insert addr entry)

/-- The key that an attestation of `v` is verified under. -/
def attestationKey (v : Validator) (att : Attestation) : Bytes :=
  (q.effectiveSessionPubKey v.address att.target.epoch).1.getD v.publicKeyBytes

/-- `verifyAttestationSignature`, apart from the promotion. -/
def verifyAttestationSignature (v : Validator) (att : Attestation) :
    Except AttestationError Unit :=
  if att.signature = [] then .error .emptySignature
  else if q.isValidatorRevoked v.address then .error (.revoked att.validatorIndex)
  else if q.attestationKey v att = [] then .error (.noPublicKey att.validatorIndex)
  else if !sch.validKey (q.attestationKey v att) then .error (.invalidPublicKey att.validatorIndex)
  else if !sch.verify (q.attestationKey v att) (attestationSigningData env.networkID att)
      att.signature then .error (.signatureFailed att.validatorIndex)
  else .ok ()

/-- The registry after the key of `att` was looked up, which happens for
every signature that is not empty. -/
def promoteFor (v : Validator) (att : Attestation) : QPOS :=
  if att.signature = [] ∨ q.isValidatorRevoked v.address then q
  else { q with vkReg := (q.effectiveSessionPubKey v.address att.target.epoch).2 }

/-! ## Evidence -/

/-- The evidence of `queueSlashingEvidenceLocked` that is not malformed: the
address is set, the reason is known and has its votes. -/
def wellFormedEvidence (ev : SlashingEvidence) : Bool :=
  ev.validatorAddr ≠ zeroArr 20 &&
    match ev.reason with
    | .doubleSigning | .surroundVote | .doubleVote => ev.vote1.isSome && ev.vote2.isSome
    | .downtime | .invalidVRF => true
    | .unknown _ => false

/-- `queueSlashingEvidenceLocked`. -/
def queueSlashingEvidence (ev : SlashingEvidence) : QPOS :=
  if !wellFormedEvidence ev then q
  else if maxEvidencePerValidator ≤
      (q.evidenceQueue.filter fun e => e.validatorAddr = ev.validatorAddr).length then q
  else if maxEvidenceQueue ≤ q.evidenceQueue.length then
    match q.evidenceQueue.findIdx? fun e => e.validatorAddr = ev.validatorAddr with
    | some i => { q with evidenceQueue := q.evidenceQueue.eraseIdx i ++ [ev] }
    | none => q
  else { q with evidenceQueue := q.evidenceQueue ++ [ev] }

/-- Queues the evidence, and submits it when there is a slashing manager. -/
def reportEvidence (ev : SlashingEvidence) : QPOS :=
  let q' := q.queueSlashingEvidence ev
  if q'.slashingManager then { q' with submitted := q'.submitted ++ [ev] } else q'

/-! ## The slashing checks -/

/-- The votes recorded for a validator. -/
def votesOf (idx : Int) : Fmap Slot Attestation := (q.validatorAttestations[idx]?).getD ∅

/-- The evidence that `checkDoubleVote` makes of the stored vote and the new
one. -/
def doubleVoteEvidence (v : Validator) (existing att : Attestation) : SlashingEvidence where
  reason := .doubleVote
  validatorAddr := v.address
  height := att.slot
  vote1 := some (attestationToVote existing v.address)
  vote2 := some (attestationToVote att v.address)
  missedBlocks := 0
  timestamp := if q.lastKnownBlockTime = 0 then env.now else q.lastKnownBlockTime

/-- `checkDoubleVote`: the stored vote of the same slot is for another
block. -/
def checkDoubleVote (v : Validator) (att : Attestation) : Option SlashingEvidence :=
  match (q.votesOf att.validatorIndex)[att.slot]? with
  | none => none
  | some existing =>
    if existing.beaconBlockRoot ≠ att.beaconBlockRoot then
      some (q.doubleVoteEvidence env v existing att)
    else none

/-- `checkSurroundVote`: the first conflict in the order of the map. -/
def checkSurroundVote (att : Attestation) : Option (Attestation × VoteConflict) :=
  ((q.votesOf att.validatorIndex).range env.order).findSome? fun e =>
    (conflictKind att e.2).map fun kind => (e.2, kind)

/-- The evidence that `ProcessAttestation` makes of it. -/
def surroundEvidence (v : Validator) (att existing : Attestation) (kind : VoteConflict) :
    SlashingEvidence where
  reason := match kind with
    | .double => .doubleVote
    | .surround => .surroundVote
  validatorAddr := v.address
  height := att.slot
  vote1 := some (attestationToVote att v.address)
  vote2 := some (attestationToVote existing v.address)
  missedBlocks := 0
  timestamp := q.lastKnownBlockTime

def conflictError (kind : VoteConflict) : AttestationError :=
  let cause := match kind with
    | .double => .doubleVote
    | .surround => .surroundVote
  if q.slashingManager then cause else .evidenceQueued cause

/-! ## Processing -/

/-- The checks before the signature. -/
def admission (att : Attestation) : Except AttestationError Validator :=
  let currentSlot := getCurrentSlot env
  if env.networkID = 0 then .error .networkIDNotConfigured
  else if att.slot > currentSlot + 1 then .error .slotTooFar
  else if currentSlot > slotsPerEpoch ∧ att.slot < currentSlot - slotsPerEpoch then
    .error .slotInPast
  else if slotToEpoch att.slot > getCurrentEpoch env then
    .error (.futureEpoch att.slot (slotToEpoch att.slot) (getCurrentEpoch env))
  else match q.validatorAt att.validatorIndex with
    | none => .error (.indexOutOfRange att.validatorIndex q.validators.length)
    | some v =>
      if att.validatorIndex ∈ q.slashedValidators then .error .validatorSlashed
      else if !v.active then .error .validatorNotActive
      else match (q.votesOf att.validatorIndex)[att.slot]? with
        | none => .ok v
        | some existing =>
          if existing.beaconBlockRoot = att.beaconBlockRoot then .error .duplicateAttestation
          else .ok v

/-- `isInCommitteeLocked`: up to 32 validators form the committee of every
slot. -/
def isInCommittee (slot : Slot) (addr : Address) : Bool :=
  if q.validators.length ≤ 32 then q.validators.any fun v => v.address = addr
  else addr ∈ env.committee slot

/-- The checks between the signature and the slashing checks. -/
def checkForm (v : Validator) (att : Attestation) : Except AttestationError Unit :=
  if att.target.epoch ≠ slotToEpoch att.slot then
    .error (.targetEpochMismatch att.target.epoch (slotToEpoch att.slot))
  else if att.target.epoch ≤ att.source.epoch then
    .error (.sourceNotBeforeTarget att.source.epoch att.target.epoch)
  else if 0 < att.source.epoch ∧ q.getEpochBlockRoot att.source.epoch = zeroHash then
    .error (.sourceRootUnknown att.source.epoch)
  else if 0 < att.source.epoch ∧ att.source.root ≠ q.getEpochBlockRoot att.source.epoch then
    .error (.sourceRootMismatch att.source.root (q.getEpochBlockRoot att.source.epoch)
      att.source.epoch)
  else if !q.isInCommittee env att.slot v.address then .error .notInCommittee
  else .ok ()

/-- Stores an accepted attestation. -/
def store (att : Attestation) : QPOS :=
  { q with
    attestations := q.attestations.insert att.slot (q.storedAt att.slot ++ [att])
    validatorAttestations := q.validatorAttestations.insert att.validatorIndex
      ((q.votesOf att.validatorIndex).insert att.slot att) }

/-- The slashing checks, and what follows when they find nothing. -/
def judge (v : Validator) (att : Attestation) : Except AttestationError Unit × QPOS :=
  match q.checkDoubleVote env v att with
  | some ev => (.error .doubleVote, q.reportEvidence ev)
  | none =>
    match q.checkSurroundVote env att with
    | some (existing, kind) =>
      (.error (q.conflictError kind), q.reportEvidence (q.surroundEvidence v att existing kind))
    | none =>
      if (q.storedAt att.slot).any fun a => a.validatorIndex = att.validatorIndex then
        (.error .duplicateAttestation, q)
      else (.ok (), (q.store att).tryUpdateFinality env)

def processAttestation (att : Attestation) : Except AttestationError Unit × QPOS :=
  match q.admission env att with
  | .error e => (.error e, q)
  | .ok v =>
    match q.verifyAttestationSignature sch env v att with
    | .error e => (.error e, q.promoteFor v att)
    | .ok () =>
      match (q.promoteFor v att).checkForm env v att with
      | .error e => (.error e, q.promoteFor v att)
      | .ok () => (q.promoteFor v att).judge env v att

/-! ## Creation -/

/-- The source checkpoint a new attestation of `epoch` takes, if any. -/
def attestationSource (epoch : Epoch) : Option Checkpoint :=
  match q.attestationSources[epoch]? with
  | some source => some source
  | none =>
    if epoch > 0 ∧ epoch ≤ q.justifiedEpoch ∧ epoch ≤ q.finalizedEpoch then
      if epoch - 1 > 0 ∧ q.getEpochBlockRoot (epoch - 1) = zeroHash then none
      else some ⟨epoch - 1, q.getEpochBlockRoot (epoch - 1)⟩
    else some ⟨q.justifiedEpoch, q.justifiedRoot⟩

/-- The recorded sources without those more than two epochs old. -/
def recentSources (epoch : Epoch) : Fmap Epoch Checkpoint :=
  q.attestationSources.filter fun e _ => !(decide (e < epoch) && decide (epoch - e > 2))

def createAttestation (slot : Slot) (blockRoot : Hash) (validatorIndex : Int) :
    Option Attestation × QPOS :=
  let epoch := slotToEpoch slot
  match q.attestationSource epoch with
  | none => (none, q)
  | some source =>
    let targetRoot := q.getEpochBlockRoot epoch
    let att : Attestation := {
      slot := slot
      beaconBlockRoot := blockRoot
      source := source
      target := ⟨epoch, targetRoot⟩
      validatorIndex := validatorIndex
      signature := []
      keyVersion := q.currentKeyVersion }
    if targetRoot = zeroHash then (none, q)
    else if source.epoch < epoch then
      let sources := q.recentSources epoch
      if (sources[epoch]?).isNone ∧ 64 ≤ sources.size then
        (none, { q with attestationSources := sources })
      else (some att, { q with attestationSources := sources.insert epoch source })
    else (some att, q)

/-! ## Pruning -/

/-- `PruneOldAttestations`. The cap on tracked validators is left out: it is
the size up to which `AddValidator` and `updateValidatorSet` let a set grow,
so only a larger set given to `NewQPOS` itself could reach it. -/
def pruneOldAttestations (keepAboveSlot : Slot) : QPOS :=
  let slashingKeepSlot :=
    if keepAboveSlot > 3 * slotsPerEpoch then keepAboveSlot - 3 * slotsPerEpoch else 0
  { q with
    attestations := q.attestations.filter fun slot _ => !decide (slot < keepAboveSlot)
    validatorAttestations := (q.validatorAttestations.map fun _ votes =>
      votes.filter fun slot _ => !decide (slot < slashingKeepSlot)).filter
        fun _ votes => !votes.isEmpty }

/-! ## What the calls do to the state -/

section Frame

variable {sch : SignatureScheme} {env : Env} {q : QPOS} {v : Validator} {att : Attestation}

theorem promoteFor_eq (q : QPOS) (v : Validator) (att : Attestation) :
    ∃ vkReg, q.promoteFor v att = { q with vkReg := vkReg } := by
  unfold promoteFor
  split_ifs
  · exact ⟨q.vkReg, rfl⟩
  · exact ⟨_, rfl⟩

theorem queueSlashingEvidence_eq (q : QPOS) (ev : SlashingEvidence) :
    ∃ queue, q.queueSlashingEvidence ev = { q with evidenceQueue := queue } := by
  unfold queueSlashingEvidence
  split_ifs
  · exact ⟨q.evidenceQueue, rfl⟩
  · exact ⟨q.evidenceQueue, rfl⟩
  · split
    · exact ⟨_, rfl⟩
    · exact ⟨q.evidenceQueue, rfl⟩
  · exact ⟨_, rfl⟩

theorem reportEvidence_eq (q : QPOS) (ev : SlashingEvidence) : ∃ queue submitted,
      q.reportEvidence ev = { q with evidenceQueue := queue, submitted := submitted } := by
  obtain ⟨queue, hq⟩ := queueSlashingEvidence_eq q ev
  unfold reportEvidence
  rw [hq]
  dsimp only
  split_ifs
  · exact ⟨queue, _, rfl⟩
  · exact ⟨queue, q.submitted, rfl⟩

theorem checkSurroundVote_eq_some {kind : VoteConflict}
    (h : q.checkSurroundVote env att = some (existing, kind)) :
    (∃ s : Slot, (q.votesOf att.validatorIndex)[s]? = some existing) ∧
      conflictKind att existing = some kind := by
  obtain ⟨⟨s, a⟩, hmem, ha⟩ := List.exists_of_findSome?_eq_some h
  obtain ⟨kind', hk, heq⟩ := Option.map_eq_some_iff.mp ha
  cases heq
  exact ⟨⟨s, Fmap.mem_range.mp hmem⟩, hk⟩

theorem checkSurroundVote_eq_none : q.checkSurroundVote env att = none ↔
      ∀ (s : Slot) (a : Attestation), (q.votesOf att.validatorIndex)[s]? = some a →
        conflictKind att a = none := by
  unfold checkSurroundVote
  rw [List.findSome?_eq_none_iff]
  constructor
  · intro h s a ha
    exact Option.map_eq_none_iff.mp (h (s, a) (Fmap.mem_range.mpr ha))
  · rintro h ⟨s, a⟩ hmem
    rw [h s a (Fmap.mem_range.mp hmem), Option.map_none]

/-- The conditions of `admission` on the time and on the validator. -/
structure Entitled (env : Env) (q : QPOS) (v : Validator) (att : Attestation) : Prop where
  network : env.networkID ≠ 0
  notAhead : ¬ att.slot > getCurrentSlot env + 1
  notPast : ¬ (getCurrentSlot env > slotsPerEpoch ∧ att.slot < getCurrentSlot env - slotsPerEpoch)
  epoch : ¬ slotToEpoch att.slot > getCurrentEpoch env
  validator : q.validatorAt att.validatorIndex = some v
  unslashed : att.validatorIndex ∉ q.slashedValidators
  active : v.active = true

/-- The conditions of `admission`. -/
structure Admitted (env : Env) (q : QPOS) (v : Validator) (att : Attestation) : Prop extends
    Entitled env q v att where
  unseen : ∀ existing, (q.votesOf att.validatorIndex)[att.slot]? = some existing →
    existing.beaconBlockRoot ≠ att.beaconBlockRoot

theorem admission_eq_ok : q.admission env att = .ok v ↔ Admitted env q v att := by
  unfold admission
  dsimp only
  constructor
  · intro h
    split_ifs at h with hn ha hp he hs
    · split at h <;> cases h
    split at h
    · cases h
    next w hw =>
    split_ifs at h with hact
    have hact : w.active = true := by simpa using hact
    split at h
    · next hnone =>
      cases h
      exact ⟨⟨hn, ha, hp, he, hw, hs, hact⟩, fun existing hst => by rw [hnone] at hst; cases hst⟩
    · next existing hst =>
      split_ifs at h with hne
      cases h
      refine ⟨⟨hn, ha, hp, he, hw, hs, hact⟩, fun existing' hst' => ?_⟩
      rw [hst] at hst'
      cases hst'
      exact hne
  · rintro ⟨⟨hn, ha, hp, he, hv, hs, hact⟩, hunseen⟩
    rw [if_neg hn, if_neg ha, if_neg hp, if_neg he, hv]
    dsimp only
    rw [if_neg hs, hact, Bool.not_true, if_neg Bool.false_ne_true]
    split
    · rfl
    · next existing hst => rw [if_neg (hunseen existing hst)]

/-- An admitted attestation whose slot shows no double vote is the first of
its validator for the slot. -/
theorem Admitted.votesOf_slot (ha : Admitted env q v att) (hd : q.checkDoubleVote env v att = none)
    : (q.votesOf att.validatorIndex)[att.slot]? = none := by
  cases hs : (q.votesOf att.validatorIndex)[att.slot]? with
  | none => rfl
  | some existing =>
    have hne := ha.unseen existing hs
    simp [checkDoubleVote, hs, hne] at hd

/-- The checks that an attestation passes before its validator's other votes
are looked at. -/
structure Passes (sch : SignatureScheme) (env : Env) (q : QPOS) (v : Validator)
    (att : Attestation) : Prop where
  admitted : q.admission env att = .ok v
  signed : q.verifyAttestationSignature sch env v att = .ok ()
  form : q.checkForm env v att = .ok ()

/-- The evidence a call makes, with the earlier vote it is about. -/
inductive Reports (env : Env) (q : QPOS) (v : Validator) (att : Attestation) :
    Attestation → SlashingEvidence → Prop where
  | sameSlot {existing : Attestation}
      (stored : (q.votesOf att.validatorIndex)[att.slot]? = some existing)
      (other : existing.beaconBlockRoot ≠ att.beaconBlockRoot) :
      Reports env q v att existing (q.doubleVoteEvidence env v existing att)
  | conflict {existing : Attestation} {kind : VoteConflict}
      (fresh : q.checkDoubleVote env v att = none)
      (found : q.checkSurroundVote env att = some (existing, kind)) :
      Reports env q v att existing (q.surroundEvidence v att existing kind)

/-- The calls that store the vote: nothing conflicts, and the slot has no
vote of the validator yet. -/
structure Stores (env : Env) (q : QPOS) (v : Validator) (att : Attestation) : Prop where
  noDouble : q.checkDoubleVote env v att = none
  noConflict : q.checkSurroundVote env att = none
  first : ∀ a ∈ q.storedAt att.slot, a.validatorIndex ≠ att.validatorIndex

theorem judge_cases (env : Env) (q : QPOS) (v : Validator) (att : Attestation) :
    (∃ existing ev err, Reports env q v att existing ev ∧
      q.judge env v att = (.error err, q.reportEvidence ev)) ∨
    ((∀ existing ev, ¬ Reports env q v att existing ev) ∧ ¬ Stores env q v att ∧
      q.judge env v att = (.error .duplicateAttestation, q)) ∨
    (Stores env q v att ∧ q.judge env v att = (.ok (), (q.store att).tryUpdateFinality env)) := by
  unfold judge
  cases hd : q.checkDoubleVote env v att with
  | some ev =>
    refine .inl ?_
    unfold checkDoubleVote at hd
    split at hd
    · cases hd
    · next existing hst =>
      split_ifs at hd with hne
      cases hd
      exact ⟨existing, _, _, .sameSlot hst hne, rfl⟩
  | none =>
    cases hs : q.checkSurroundVote env att with
    | some found =>
      obtain ⟨existing, kind⟩ := found
      exact .inl ⟨existing, _, _, .conflict hd hs, rfl⟩
    | none =>
      refine .inr ?_
      have hnone : ∀ existing ev, ¬ Reports env q v att existing ev := by
        rintro existing ev (⟨hst, hne⟩ | ⟨-, hfound⟩)
        · simp [checkDoubleVote, hst, hne] at hd
        · rw [hs] at hfound
          cases hfound
      dsimp only
      split_ifs with hdup
      · refine .inl ⟨hnone, fun hst => ?_, rfl⟩
        obtain ⟨a, ha, heq⟩ := List.any_eq_true.mp hdup
        exact hst.first a ha (of_decide_eq_true heq)
      · refine .inr ⟨⟨hd, hs, fun a ha heq => hdup ?_⟩, rfl⟩
        exact List.any_eq_true.mpr ⟨a, ha, decide_eq_true heq⟩

theorem passes_promoteFor_form (q : QPOS) (env : Env) (v w : Validator) (att : Attestation) :
    (q.promoteFor w att).checkForm env v att = q.checkForm env v att := by
  obtain ⟨reg, h⟩ := promoteFor_eq q w att
  rw [h]
  rfl

theorem reports_promoteFor {ev : SlashingEvidence} :
    Reports env (q.promoteFor w att) v att existing ev ↔ Reports env q v att existing ev := by
  obtain ⟨reg, h⟩ := promoteFor_eq q w att
  rw [h]
  constructor
  · rintro (⟨hst, hne⟩ | ⟨hd, hs⟩)
    · exact .sameSlot hst hne
    · exact .conflict hd hs
  · rintro (⟨hst, hne⟩ | ⟨hd, hs⟩)
    · exact .sameSlot hst hne
    · exact .conflict hd hs

theorem stores_promoteFor : Stores env (q.promoteFor w att) v att ↔ Stores env q v att := by
  obtain ⟨reg, h⟩ := promoteFor_eq q w att
  rw [h]
  exact ⟨fun s => ⟨s.noDouble, s.noConflict, s.first⟩,
    fun s => ⟨s.noDouble, s.noConflict, s.first⟩⟩

theorem processAttestation_cases (sch : SignatureScheme) (env : Env) (q : QPOS) (att : Attestation)
    : (∃ err, (∀ v, ¬ Passes sch env q v att) ∧
      ((q.processAttestation sch env att = (.error err, q)) ∨
        ∃ v, q.processAttestation sch env att = (.error err, q.promoteFor v att))) ∨
    (∃ v existing ev err, Passes sch env q v att ∧ Reports env q v att existing ev ∧
      q.processAttestation sch env att =
        (.error err, (q.promoteFor v att).reportEvidence ev)) ∨
    (∃ v, Passes sch env q v att ∧ (∀ existing ev, ¬ Reports env q v att existing ev) ∧
      ¬ Stores env q v att ∧
      q.processAttestation sch env att =
        (.error .duplicateAttestation, q.promoteFor v att)) ∨
    (∃ v, Passes sch env q v att ∧ Stores env q v att ∧
      q.processAttestation sch env att =
        (.ok (), ((q.promoteFor v att).store att).tryUpdateFinality env)) := by
  unfold processAttestation
  cases ha : q.admission env att with
  | error err =>
    refine .inl ⟨err, fun v hp => ?_, .inl rfl⟩
    have := hp.admitted
    rw [ha] at this
    cases this
  | ok v =>
    have huniq : ∀ w, q.admission env att = .ok w → w = v := fun w hw => by
      rw [ha] at hw
      exact (Except.ok.inj hw).symm
    dsimp only
    cases hs : q.verifyAttestationSignature sch env v att with
    | error err =>
      refine .inl ⟨err, fun w hp => ?_, .inr ⟨v, rfl⟩⟩
      have := hp.signed
      rw [huniq w hp.admitted, hs] at this
      cases this
    | ok u =>
      dsimp only
      rw [passes_promoteFor_form]
      cases hf : q.checkForm env v att with
      | error err =>
        refine .inl ⟨err, fun w hp => ?_, .inr ⟨v, rfl⟩⟩
        have := hp.form
        rw [huniq w hp.admitted, hf] at this
        cases this
      | ok u =>
        have hp : Passes sch env q v att := ⟨ha, hs, hf⟩
        dsimp only
        rcases judge_cases env (q.promoteFor v att) v att with
          ⟨existing, ev, err, hr, heq⟩ | ⟨hr, hst, heq⟩ | ⟨hst, heq⟩
        · exact .inr (.inl ⟨v, existing, ev, err, hp, reports_promoteFor.mp hr, heq⟩)
        · exact .inr (.inr (.inl ⟨v, hp, fun existing ev h => hr existing ev
            (reports_promoteFor.mpr h), fun h => hst (stores_promoteFor.mpr h), heq⟩))
        · exact .inr (.inr (.inr ⟨v, hp, stores_promoteFor.mp hst, heq⟩))

theorem processAttestation_of_stores (hp : Passes sch env q v att) (hs : Stores env q v att) :
    q.processAttestation sch env att =
      (.ok (), ((q.promoteFor v att).store att).tryUpdateFinality env) := by
  have hj : (q.promoteFor v att).judge env v att =
      (.ok (), ((q.promoteFor v att).store att).tryUpdateFinality env) := by
    rcases judge_cases env (q.promoteFor v att) v att with
      ⟨existing, ev, err, hr, -⟩ | ⟨-, hns, -⟩ | ⟨-, heq⟩
    · rcases reports_promoteFor.mp hr with ⟨hst, hne⟩ | ⟨-, hfound⟩
      · have := hs.noDouble
        simp [checkDoubleVote, hst, hne] at this
      · rw [hs.noConflict] at hfound
        cases hfound
    · exact absurd (stores_promoteFor.mpr hs) hns
    · exact heq
  unfold processAttestation
  simp only [hp.admitted, hp.signed, passes_promoteFor_form, hp.form, hj]

end Frame

end QPOS

end Qau.Consensus
