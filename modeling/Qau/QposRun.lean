import Qau.QposAttest
import Qau.Transition

/-!
# Runs of the consensus engine

The calls that reach the engine, as one step function, so that an invariant
is proved call by call and holds in every state that a run reaches. What a
call can write is said once per call, in the form of the updated record;
the invariants are read off those forms.
-/

namespace Qau.Consensus

open QPOS

namespace QPOS

variable (env : Env) (q : QPOS)

/-! ## What the calls write -/

theorem persistFinality_eq : ∃ pending persisted, q.persistFinality env =
      { q with finalityPersistPending := pending, persisted := persisted } := by
  unfold persistFinality
  split_ifs
  · exact ⟨q.finalityPersistPending, q.persisted, rfl⟩
  · exact ⟨true, q.persisted, rfl⟩
  · exact ⟨q.finalityPersistPending, q.persisted, rfl⟩
  · exact ⟨true, q.persisted, rfl⟩
  · exact ⟨false, some q.finality, rfl⟩

theorem pinFinalizedCheckpointSlot_eq :
    ∃ pin, q.pinFinalizedCheckpointSlot = { q with finalizedSlotPin := pin } := by
  unfold pinFinalizedCheckpointSlot
  split_ifs
  · exact ⟨_, rfl⟩
  · exact ⟨q.finalizedSlotPin, rfl⟩
  · split
    · exact ⟨_, rfl⟩
    · exact ⟨q.finalizedSlotPin, rfl⟩

theorem pin_persist_eq : ∃ pin pending persisted, q.pinFinalizedCheckpointSlot.persistFinality env =
      { q with
        finalizedSlotPin := pin
        finalityPersistPending := pending
        persisted := persisted } := by
  obtain ⟨pin, hpin⟩ := pinFinalizedCheckpointSlot_eq q
  obtain ⟨pending, persisted, h⟩ := persistFinality_eq env q.pinFinalizedCheckpointSlot
  exact ⟨pin, pending, persisted, by rw [h, hpin]⟩

theorem advanceCheckpoints_eq (prevEpoch : Epoch) :
    ∃ j jr f fr pending, q.advanceCheckpoints prevEpoch =
      { q with
        justifiedEpoch := j
        justifiedRoot := jr
        finalizedEpoch := f
        finalizedRoot := fr
        finalityPersistPending := pending } := by
  unfold advanceCheckpoints
  dsimp only
  split_ifs
  all_goals exact ⟨_, _, _, _, _, rfl⟩

theorem tryUpdateFinality_eq : ∃ j jr f fr pin pending persisted, q.tryUpdateFinality env =
      { q with
        justifiedEpoch := j
        justifiedRoot := jr
        finalizedEpoch := f
        finalizedRoot := fr
        finalizedSlotPin := pin
        finalityPersistPending := pending
        persisted := persisted } := by
  unfold tryUpdateFinality
  dsimp only
  split_ifs
  · exact ⟨_, _, _, _, _, _, _, rfl⟩
  · exact ⟨_, _, _, _, _, _, _, rfl⟩
  · exact ⟨_, _, _, _, _, _, _, rfl⟩
  · exact ⟨_, _, _, _, _, _, _, rfl⟩
  · obtain ⟨j, jr, f, fr, pending, h⟩ := advanceCheckpoints_eq q (q.currentFinalityEpoch env - 1)
    obtain ⟨pin, pending', persisted, h'⟩ :=
      pin_persist_eq env (q.advanceCheckpoints (q.currentFinalityEpoch env - 1))
    exact ⟨j, jr, f, fr, pin, pending', persisted, by rw [h', h]⟩

end QPOS

/-! ## Calls -/

/-- The fields that other parts of the node maintain: the validator set, the
slashed indices, session keys, configuration, and the evidence queue that
the broadcaster drains. -/
structure Outside where
  validators : List Validator
  slashedValidators : Finset Int
  weightedProposerCutover : Epoch
  vkReg : Fmap Address ValidatorKeyState
  currentKeyVersion : UInt64
  slashingManager : Bool
  evidenceQueue : List SlashingEvidence

/-- The calls on the engine. -/
inductive Op where
  | processAttestation (att : Attestation)
  | createAttestation (slot : Slot) (blockRoot : Hash) (validatorIndex : Int)
  | adoptHeaderFinality (justifiedEpoch finalizedEpoch headerEpoch : Epoch) (headerHash : Hash)
  | setEpochBlockRoot (epoch : Epoch) (blockRoot : Hash)
  | ensureEpochBlockRoot (epoch : Epoch) (blockRoot : Hash)
  | setSlotBlockRoot (slot : Slot) (blockRoot : Hash)
  | reanchorSlotRoots (roots vrfAccUpdates : Fmap Slot Hash) (bounds : ReanchorBounds)
  | restoreFinalityState (st : FinalityState)
  | setFinalityPersistCallback
  | pruneOldAttestations (keepAboveSlot : Slot)
  | setLastKnownBlockTime (timestamp : Int)
  | outside (o : Outside)

/-- A call with what it observes. -/
structure Call where
  env : Env
  op : Op

/-- A network whose clock stands at the start of a slot. -/
def clockAt (slot : Nat) : Env where
  networkID := 1
  genesisTime := 1
  now := 1 + 12 * slot
  committee _ := []
  order := .sorted Slot
  durable := true

/-- One call. A header whose checkpoints are ahead of it is not adopted, and
a refused restore leaves the state as it is. -/
def step (sch : SignatureScheme) (q : QPOS) (c : Call) : QPOS :=
  match c.op with
  | .processAttestation att => (q.processAttestation sch c.env att).2
  | .createAttestation slot blockRoot idx => (q.createAttestation slot blockRoot idx).2
  | .adoptHeaderFinality j f headerEpoch hash =>
    if headerFinalityCheckpointsValid j f headerEpoch then q.adoptHeaderFinality c.env j f hash
    else q
  | .setEpochBlockRoot epoch root => q.setEpochBlockRoot c.env epoch root
  | .ensureEpochBlockRoot epoch root => q.ensureEpochBlockRoot c.env epoch root
  | .setSlotBlockRoot slot root => q.setSlotBlockRoot slot root
  | .reanchorSlotRoots roots vrfAccUpdates bounds =>
    (q.reanchorSlotRoots roots vrfAccUpdates bounds).2
  | .restoreFinalityState st =>
    match q.restoreFinalityState st with
    | .ok q' => q'
    | .error _ => q
  | .setFinalityPersistCallback => q.setFinalityPersistCallback c.env
  | .pruneOldAttestations slot => q.pruneOldAttestations slot
  | .setLastKnownBlockTime t => q.setLastKnownBlockTime t
  | .outside o =>
    { q with
      validators := o.validators
      slashedValidators := o.slashedValidators
      weightedProposerCutover := o.weightedProposerCutover
      vkReg := o.vkReg
      currentKeyVersion := o.currentKeyVersion
      slashingManager := o.slashingManager
      evidenceQueue := o.evidenceQueue }

/-! ## The votes -/

/-- The two maps of stored votes are the same. -/
structure SameStore (q q' : QPOS) : Prop where
  attestations : q'.attestations = q.attestations
  validatorAttestations : q'.validatorAttestations = q.validatorAttestations

/-- So are the sources that the node's own votes take. -/
structure SameVotes (q q' : QPOS) : Prop extends SameStore q q' where
  sources : q'.attestationSources = q.attestationSources

namespace SameVotes

variable {q q' q'' : QPOS} {env : Env}

theorem refl (q : QPOS) : SameVotes q q := ⟨⟨rfl, rfl⟩, rfl⟩

theorem trans (h : SameVotes q q') (h' : SameVotes q' q'') : SameVotes q q'' :=
  ⟨⟨h'.attestations.trans h.attestations,
    h'.validatorAttestations.trans h.validatorAttestations⟩, h'.sources.trans h.sources⟩

theorem tryUpdateFinality (q : QPOS) : SameVotes q (q.tryUpdateFinality env) := by
  obtain ⟨j, jr, f, fr, pin, pending, persisted, h⟩ := tryUpdateFinality_eq env q
  rw [h]
  exact ⟨⟨rfl, rfl⟩, rfl⟩

theorem persistFinality (q : QPOS) : SameVotes q (q.persistFinality env) := by
  obtain ⟨pending, persisted, h⟩ := persistFinality_eq env q
  rw [h]
  exact ⟨⟨rfl, rfl⟩, rfl⟩

theorem promoteFor (q : QPOS) (v : Validator) (att : Attestation) :
    SameVotes q (q.promoteFor v att) := by
  obtain ⟨reg, h⟩ := promoteFor_eq q v att
  rw [h]
  exact ⟨⟨rfl, rfl⟩, rfl⟩

theorem reportEvidence (q : QPOS) (ev : SlashingEvidence) : SameVotes q (q.reportEvidence ev) := by
  obtain ⟨queue, submitted, h⟩ := reportEvidence_eq q ev
  rw [h]
  exact ⟨⟨rfl, rfl⟩, rfl⟩

theorem adoptHeaderFinality (q : QPOS) (j f : Epoch) (hash : Hash) :
    SameVotes q (q.adoptHeaderFinality env j f hash) := by
  have hadopt : SameVotes q ((q.adoptJustified j hash).adoptFinalized f hash) := by
    unfold adoptFinalized adoptJustified
    split_ifs <;> exact ⟨⟨rfl, rfl⟩, rfl⟩
  unfold QPOS.adoptHeaderFinality
  dsimp only
  split_ifs
  · obtain ⟨pin, pending, persisted, h⟩ := QPOS.pin_persist_eq env
      { (q.adoptJustified j hash).adoptFinalized f hash with finalityPersistPending := true }
    rw [h]
    exact ⟨⟨hadopt.attestations, hadopt.validatorAttestations⟩, hadopt.sources⟩
  · exact hadopt

theorem pruneEpochRoots (q : QPOS) (epoch : Epoch) : SameVotes q (q.pruneEpochRoots epoch) := by
  unfold QPOS.pruneEpochRoots
  split_ifs <;> exact ⟨⟨rfl, rfl⟩, rfl⟩

theorem setEpochBlockRoot (q : QPOS) (epoch : Epoch) (root : Hash) :
    SameVotes q (q.setEpochBlockRoot env epoch root) := by
  unfold QPOS.setEpochBlockRoot
  dsimp only
  have hrec : SameVotes q (q.recordEpochRoot epoch root) := ⟨⟨rfl, rfl⟩, rfl⟩
  split_ifs
  · exact refl q
  · exact (hrec.trans (persistFinality _)).trans (pruneEpochRoots _ _)
  · exact hrec.trans (pruneEpochRoots _ _)

theorem setSlotBlockRoot (q : QPOS) (slot : Slot) (root : Hash) :
    SameVotes q (q.setSlotBlockRoot slot root) := by
  unfold QPOS.setSlotBlockRoot
  dsimp only
  split_ifs <;> exact ⟨⟨rfl, rfl⟩, rfl⟩

theorem reanchorSlotRoots (q : QPOS) (roots vrfAccUpdates : Fmap Slot Hash)
    (bounds : ReanchorBounds) : SameVotes q (q.reanchorSlotRoots roots vrfAccUpdates bounds).2 := by
  unfold QPOS.reanchorSlotRoots
  split
  · exact refl q
  · split_ifs <;> exact ⟨⟨rfl, rfl⟩, rfl⟩

theorem restoreFinalityState {st : FinalityState} (h : q.restoreFinalityState st = .ok q') :
    SameVotes q q' := by
  unfold QPOS.restoreFinalityState at h
  split at h
  · cases h
  · split at h
    · cases h
    · cases h
      unfold registerRestoredCheckpointRoots
      dsimp only
      split_ifs <;> exact ⟨⟨rfl, rfl⟩, rfl⟩

end SameVotes

theorem SameStore.createAttestation (q : QPOS) (slot : Slot) (blockRoot : Hash) (idx : Int) :
    SameStore q (q.createAttestation slot blockRoot idx).2 := by
  unfold QPOS.createAttestation
  dsimp only
  split
  · exact ⟨rfl, rfl⟩
  · split_ifs <;> exact ⟨rfl, rfl⟩

/-- What a call does to the votes: it stores an attestation that passed all
checks, prunes, or leaves them alone. Only `CreateAttestation` changes the
sources. -/
theorem step_votes (sch : SignatureScheme) (q : QPOS) (c : Call) : SameVotes q (step sch q c) ∨
      (∃ slot root idx, c.op = .createAttestation slot root idx ∧ SameStore q (step sch q c)) ∨
      (∃ v att, c.op = .processAttestation att ∧ QPOS.Passes sch c.env q v att ∧
        QPOS.Stores c.env q v att ∧ SameVotes (q.store att) (step sch q c)) ∨
      ∃ slot, c.op = .pruneOldAttestations slot ∧ step sch q c = q.pruneOldAttestations slot := by
  obtain ⟨env, op⟩ := c
  cases op with
  | processAttestation att =>
    rcases processAttestation_cases sch env q att with
      ⟨err, -, heq | ⟨v, heq⟩⟩ | ⟨v, existing, ev, err, -, -, heq⟩ | ⟨v, -, -, -, heq⟩ |
      ⟨v, hp, hst, heq⟩
    · refine .inl ?_
      simp only [step, heq]
      exact .refl q
    · refine .inl ?_
      simp only [step, heq]
      exact .promoteFor q v att
    · refine .inl ?_
      simp only [step, heq]
      exact (SameVotes.promoteFor q v att).trans (.reportEvidence _ ev)
    · refine .inl ?_
      simp only [step, heq]
      exact .promoteFor q v att
    · refine .inr (.inr (.inl ⟨v, att, rfl, hp, hst, ?_⟩))
      obtain ⟨reg, hreg⟩ := promoteFor_eq q v att
      simp only [step, heq, hreg]
      have hsame : SameVotes _ (tryUpdateFinality env _) :=
        .tryUpdateFinality ({ q with vkReg := reg }.store att)
      exact ⟨⟨hsame.attestations, hsame.validatorAttestations⟩, hsame.sources⟩
  | createAttestation slot root idx =>
    exact .inr (.inl ⟨slot, root, idx, rfl, .createAttestation q slot root idx⟩)
  | adoptHeaderFinality j f headerEpoch hash =>
    refine .inl ?_
    simp only [step]
    split_ifs
    · exact .adoptHeaderFinality q j f hash
    · exact .refl q
  | setEpochBlockRoot epoch root => exact .inl (.setEpochBlockRoot q epoch root)
  | ensureEpochBlockRoot epoch root =>
    refine .inl ?_
    simp only [step, ensureEpochBlockRoot]
    split_ifs
    · exact .refl q
    · exact .setEpochBlockRoot q epoch root
  | setSlotBlockRoot slot root => exact .inl (.setSlotBlockRoot q slot root)
  | reanchorSlotRoots roots vrf bounds => exact .inl (.reanchorSlotRoots q roots vrf bounds)
  | restoreFinalityState st =>
    refine .inl ?_
    simp only [step]
    split
    · next q' h => exact .restoreFinalityState h
    · exact .refl q
  | setFinalityPersistCallback =>
    refine .inl ?_
    simp only [step, setFinalityPersistCallback]
    split_ifs
    · obtain ⟨_, _, h⟩ := persistFinality_eq env
        { q with finalityPersist := true, finalityPersistPending := true }
      rw [h]
      exact ⟨⟨rfl, rfl⟩, rfl⟩
    · obtain ⟨_, _, h⟩ := persistFinality_eq env { q with finalityPersist := true }
      rw [h]
      exact ⟨⟨rfl, rfl⟩, rfl⟩
  | pruneOldAttestations slot => exact .inr (.inr (.inr ⟨slot, rfl, rfl⟩))
  | setLastKnownBlockTime t =>
    refine .inl ?_
    simp only [step, setLastKnownBlockTime]
    split_ifs <;> exact ⟨⟨rfl, rfl⟩, rfl⟩
  | outside o => exact .inl ⟨⟨rfl, rfl⟩, rfl⟩

theorem sources_step (sch : SignatureScheme) (q : QPOS) (c : Call)
    (h : ∀ slot root idx, c.op ≠ .createAttestation slot root idx) :
    (step sch q c).attestationSources = q.attestationSources := by
  rcases step_votes sch q c with hsame | ⟨slot, root, idx, hop, -⟩ | ⟨v, att, -, -, -, hsame⟩ |
    ⟨slot, -, heq⟩
  · exact hsame.sources
  · exact absurd hop (h slot root idx)
  · exact hsame.sources
  · rw [heq]
    rfl

/-- What holds of a recorded vote: it is recorded under its own validator and
slot, it was signed, and its form was checked. -/
structure RecordedVote (idx : Int) (s : Slot) (a : Attestation) : Prop where
  slot : a.slot = s
  index : a.validatorIndex = idx
  signed : a.signature ≠ []
  target : a.target.epoch = slotToEpoch a.slot
  source : a.source.epoch < a.target.epoch
  sourceRoot : 0 < a.source.epoch → a.source.root ≠ zeroHash

def VotesRecorded (q : QPOS) : Prop :=
  ∀ (idx : Int) (s : Slot) (a : Attestation), (q.votesOf idx)[s]? = some a → RecordedVote idx s a

theorem QPOS.Passes.recorded {sch : SignatureScheme} {env : Env} {q : QPOS} {v : Validator}
    {att : Attestation} (h : QPOS.Passes sch env q v att) :
    RecordedVote att.validatorIndex att.slot att := by
  have hsig := h.signed
  have hform := h.form
  unfold verifyAttestationSignature at hsig
  unfold checkForm at hform
  split_ifs at hsig with hempty
  split_ifs at hform with ht hst hz hr
  refine ⟨rfl, rfl, hempty, not_not.mp ht, UInt64.not_le.mp hst, fun hpos hzero => ?_⟩
  refine hz ⟨hpos, ?_⟩
  by_contra hne
  exact hr ⟨hpos, fun heq => hne (heq ▸ hzero)⟩

theorem SameStore.votesOf {q q' : QPOS} (h : SameStore q q') (idx : Int) :
    q'.votesOf idx = q.votesOf idx := by
  unfold QPOS.votesOf
  rw [h.validatorAttestations]

theorem getElem?_votesOf_store (q : QPOS) (att : Attestation) (idx : Int) (s : Slot) :
    ((q.store att).votesOf idx)[s]? =
      if att.validatorIndex = idx ∧ att.slot = s then some att else (q.votesOf idx)[s]? := by
  unfold QPOS.votesOf store
  rw [Fmap.getElem?_insert]
  by_cases hi : att.validatorIndex = idx
  · rw [if_pos hi, Option.getD_some, Fmap.getElem?_insert]
    subst hi
    simp [QPOS.votesOf]
  · rw [if_neg hi, if_neg fun h => hi h.1]

theorem votesOf_prune {q : QPOS} {keep : Slot} {idx : Int} {s : Slot} {a : Attestation}
    (h : ((q.pruneOldAttestations keep).votesOf idx)[s]? = some a) :
    (q.votesOf idx)[s]? = some a := by
  unfold QPOS.votesOf pruneOldAttestations at h
  generalize (if keep > 3 * slotsPerEpoch then keep - 3 * slotsPerEpoch else 0) = cut at h
  unfold QPOS.votesOf
  rw [Std.ExtTreeMap.getElem?_filter', Std.ExtTreeMap.getElem?_map] at h
  cases hv : q.validatorAttestations[idx]? with
  | none => simp [hv] at h
  | some votes =>
    rw [hv, Option.map_some, Option.filter_some] at h
    split_ifs at h
    · rw [Option.getD_some, Std.ExtTreeMap.getElem?_filter'] at h
      exact (Option.filter_eq_some_iff.mp h).1
    · simp at h

theorem votesRecorded_step (sch : SignatureScheme) {q : QPOS} (c : Call) (hq : VotesRecorded q) :
    VotesRecorded (step sch q c) := by
  intro idx s a h
  rcases step_votes sch q c with hsame | ⟨_, _, _, -, hsame⟩ | ⟨v, att, -, hp, -, hsame⟩ |
    ⟨slot, -, heq⟩
  · rw [hsame.votesOf] at h
    exact hq idx s a h
  · rw [hsame.votesOf] at h
    exact hq idx s a h
  · rw [hsame.votesOf, getElem?_votesOf_store] at h
    split_ifs at h with hk
    · obtain ⟨rfl, rfl⟩ := hk
      cases h
      exact hp.recorded
    · exact hq idx s a h
  · rw [heq] at h
    exact hq idx s a (votesOf_prune h)

/-- The votes of every state that some run reaches are recorded votes. -/
theorem votesRecorded_of_reachable {sch : SignatureScheme} {ok : QPOS → Call → Prop}
    {validators : List Validator} {cutover : Epoch} {q : QPOS}
    (h : Reachable (step sch) ok (newQPOS validators cutover) q) : VotesRecorded q := by
  refine h.invariant (fun idx s a h => ?_) fun q c hq _ => votesRecorded_step sch c hq
  simp [newQPOS, QPOS.votesOf] at h

end Qau.Consensus
