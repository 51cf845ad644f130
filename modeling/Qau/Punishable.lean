import Qau.QposRun

/-!
# Which reported offences the slashing manager accepts

`ProcessAttestation` reports conflicts of attestations, `VerifyEvidence`
judges conflicts of votes. The two agree on two blocks of one slot. They do
not agree on the checkpoint conflicts: a double vote over two slots is
reported as `DoubleVote`, whose verifier wants one height, and the surround
verifier refuses votes from the genesis epoch and votes with a zero target
root. And the detector takes session keys, the verifier only the registered
key. `reported_iff` is the exact border.
-/

namespace Qau.Consensus

variable {att existing : Attestation} {networkID : UInt64}

/-- One attestation surrounds the other, strictly at both ends. -/
def Attestation.Surrounds (outer inner : Attestation) : Prop :=
  outer.source.epoch < inner.source.epoch ∧ inner.target.epoch < outer.target.epoch

theorem conflictKind_eq_double (h : conflictKind att existing = some .double) :
    ¬ att.Surrounds existing ∧ ¬ existing.Surrounds att := by
  unfold conflictKind at h
  split_ifs at h with hs ht
  · constructor
    · exact fun hlt => UInt64.ne_of_lt hlt.1 hs.1
    · exact fun hlt => UInt64.ne_of_lt hlt.1 hs.1.symm
  · constructor
    · exact fun hlt => UInt64.ne_of_lt hlt.2 ht.1.symm
    · exact fun hlt => UInt64.ne_of_lt hlt.2 ht.1
  · cases h
  · cases h

theorem conflictKind_eq_surround (h : conflictKind att existing = some .surround) :
    att.Surrounds existing ∨ existing.Surrounds att := by
  unfold conflictKind at h
  split_ifs at h with hs ht h1 h2
  · cases h
  · cases h
  · exact .inl h1
  · exact .inr h2

def KeyVerifies (sch : SignatureScheme) (networkID : UInt64) (pk : Bytes) (a : Attestation) : Prop :=
  sch.verify pk (attestationSigningData networkID a) a.signature = true

/-- The conflicts of two recorded votes that the verifiers know: two votes
of one slot, or a surround vote away from genesis and with target roots. -/
def KnownConflict (att existing : Attestation) : Prop :=
  existing.slot = att.slot ∨
    (att.Surrounds existing ∨ existing.Surrounds att) ∧
      0 < att.source.epoch ∧ 0 < existing.source.epoch ∧
      att.target.root ≠ zeroHash ∧ existing.target.root ≠ zeroHash

section Accept

variable {sch : SignatureScheme} {env : Env} {q : QPOS} {sm : SlashingManager} {v : Validator}
  {att existing : Attestation} {ev : SlashingEvidence} {pk : Bytes}

/-- The vote made of a signed attestation is signed by the registered key
exactly when that key verifies the attestation. -/
theorem signedBy_attestationToVote {a : Attestation} {addr : Address}
    (hreg : sm.validators[addr]? = some (some pk)) (hsig : a.signature ≠ []) :
    SignedBy sch networkID sm addr (attestationToVote a addr) ↔ KeyVerifies sch networkID pk a := by
  unfold SignedBy KeyVerifies
  rw [signedMessage_attestationToVote]
  constructor
  · rintro ⟨pk', hk, -, hv⟩
    rw [hreg] at hk
    cases hk
    exact hv
  · exact fun hv => ⟨pk, hreg, hsig, hv⟩

theorem proven_doubleVoteEvidence (hreg : sm.validators[v.address]? = some (some pk))
    (hsig : att.signature ≠ []) (hsig' : existing.signature ≠ [])
    (hslot : existing.slot = att.slot) (hne : existing.beaconBlockRoot ≠ att.beaconBlockRoot) :
    Proven sch env.networkID sm (q.doubleVoteEvidence env v existing att) ↔
      KeyVerifies sch env.networkID pk att ∧ KeyVerifies sch env.networkID pk existing := by
  constructor
  · rintro ⟨vote1, vote2, h⟩
    cases h.vote1_eq
    cases h.vote2_eq
    exact ⟨(signedBy_attestationToVote hreg hsig).mp h.signed2,
      (signedBy_attestationToVote hreg hsig').mp h.signed1⟩
  · rintro ⟨hk, hk'⟩
    refine ⟨_, _, rfl, rfl, ?_, (signedBy_attestationToVote hreg hsig').mpr hk',
      (signedBy_attestationToVote hreg hsig).mpr hk⟩
    exact conflictingShape_eq_true.mpr ⟨⟨rfl, rfl⟩, hslot, rfl, rfl, hne⟩

theorem not_proven_double (hslot : existing.slot ≠ att.slot) :
    ¬ Proven sch networkID sm (q.surroundEvidence v att existing .double) := by
  rintro ⟨vote1, vote2, h⟩
  cases h.vote1_eq
  cases h.vote2_eq
  exact hslot (conflictingShape_eq_true.mp h.shape).2.1.symm

theorem surroundShape_eq_true {vote1 vote2 : Vote} : surroundShape ev vote1 vote2 = true ↔
      (vote1.type = VoteType.attestation ∧ vote2.type = VoteType.attestation) ∧
      (vote1.sourceEpoch ≠ 0 ∧ vote2.sourceEpoch ≠ 0) ∧
      (vote1.sourceEpoch < vote1.targetEpoch ∧ vote2.sourceEpoch < vote2.targetEpoch) ∧
      (vote1.sourceRoot ≠ zeroHash ∧ vote1.targetRoot ≠ zeroHash) ∧
      (vote2.sourceRoot ≠ zeroHash ∧ vote2.targetRoot ≠ zeroHash) ∧
      (Surrounds vote1 vote2 ∨ Surrounds vote2 vote1) ∧
      (ev.height = vote1.height ∨ ev.height = vote2.height) := by
  simp only [surroundShape, Bool.and_eq_true, Bool.or_eq_true, decide_eq_true_eq, and_assoc]

/-- A surround vote of two recorded votes: the key, the genesis epoch and
the target roots matter. -/
theorem proven_surroundEvidence (hreg : sm.validators[v.address]? = some (some pk)) {s : Slot}
    (ha : RecordedVote att.validatorIndex att.slot att)
    (he : RecordedVote att.validatorIndex s existing)
    (hsur : att.Surrounds existing ∨ existing.Surrounds att) :
    Proven sch networkID sm (q.surroundEvidence v att existing .surround) ↔
      (KeyVerifies sch networkID pk att ∧ KeyVerifies sch networkID pk existing) ∧
        0 < att.source.epoch ∧ 0 < existing.source.epoch ∧
        att.target.root ≠ zeroHash ∧ existing.target.root ≠ zeroHash := by
  constructor
  · rintro ⟨vote1, vote2, h⟩
    cases h.vote1_eq
    cases h.vote2_eq
    obtain ⟨-, ⟨h1, h2⟩, -, ⟨-, ht1⟩, ⟨-, ht2⟩, -, -⟩ := surroundShape_eq_true.mp h.shape
    exact ⟨⟨(signedBy_attestationToVote hreg ha.signed).mp h.signed1,
      (signedBy_attestationToVote hreg he.signed).mp h.signed2⟩,
      UInt64.pos_iff_ne_zero.mpr h1, UInt64.pos_iff_ne_zero.mpr h2, ht1, ht2⟩
  · rintro ⟨⟨hk, hk'⟩, hpos, hpos', ht, ht'⟩
    refine ⟨_, _, rfl, rfl, ?_, rfl, rfl, ?_, (signedBy_attestationToVote hreg ha.signed).mpr hk,
      (signedBy_attestationToVote hreg he.signed).mpr hk'⟩
    · intro hzero
      have hepoch : att.target.epoch = 0 := by
        rw [ha.target, show att.slot = 0 from hzero]
        rfl
      have hlt := ha.source
      rw [hepoch] at hlt
      exact absurd hlt UInt64.not_lt_zero
    · exact surroundShape_eq_true.mpr ⟨⟨rfl, rfl⟩,
        ⟨UInt64.pos_iff_ne_zero.mp hpos, UInt64.pos_iff_ne_zero.mp hpos'⟩,
        ⟨ha.source, he.source⟩, ⟨ha.sourceRoot hpos, ht⟩, ⟨he.sourceRoot hpos', ht'⟩, hsur,
        .inl rfl⟩

end Accept

/-- The evidence that a call reports is accepted, while it is fresh and the
validator has a registered key, exactly when that key made both signatures
and the verifiers know the conflict. -/
theorem reported_iff {sch : SignatureScheme} {ok : QPOS → Call → Prop} {validators : List Validator}
    {cutover : Epoch} {q : QPOS} (hq : Reachable (step sch) ok (newQPOS validators cutover) q)
    {env : Env} {v : Validator} {att existing : Attestation} {ev : SlashingEvidence}
    (hp : QPOS.Passes sch env q v att) (hr : QPOS.Reports env q v att existing ev)
    {sm : SlashingManager} {now : Int} {pk : Bytes}
    (hreg : sm.validators[v.address]? = some (some pk)) (hfresh : Fresh now ev) :
    verifyEvidence sch env.networkID sm now ev = .ok () ↔
      (KeyVerifies sch env.networkID pk att ∧ KeyVerifies sch env.networkID pk existing) ∧
        KnownConflict att existing := by
  have hvotes := votesRecorded_of_reachable hq
  have ha := hp.recorded
  rw [verifyEvidence_eq_ok_iff, and_iff_right hfresh]
  cases hr with
  | sameSlot hst hne =>
    have he := hvotes _ _ _ hst
    rw [proven_doubleVoteEvidence hreg ha.signed he.signed he.slot hne]
    exact ⟨fun h => ⟨h, .inl he.slot⟩, fun h => h.1⟩
  | conflict hd hs =>
    obtain ⟨⟨s, hst⟩, hkind⟩ := QPOS.checkSurroundVote_eq_some hs
    have he := hvotes _ _ _ hst
    have hslot : existing.slot ≠ att.slot := by
      intro heq
      have hfree := (QPOS.admission_eq_ok.mp hp.admitted).votesOf_slot hd
      rw [← heq, he.slot, hst] at hfree
      cases hfree
    rename_i kind
    cases kind with
    | double =>
      obtain ⟨hn, hn'⟩ := conflictKind_eq_double hkind
      constructor
      · exact fun h => absurd h (not_proven_double hslot)
      · rintro ⟨-, heq | ⟨hsur | hsur, -⟩⟩
        · exact absurd heq hslot
        · exact absurd hsur hn
        · exact absurd hsur hn'
    | surround =>
      have hsur := conflictKind_eq_surround hkind
      rw [proven_surroundEvidence hreg ha he hsur]
      constructor
      · exact fun h => ⟨h.1, .inr ⟨hsur, h.2⟩⟩
      · rintro ⟨hk, heq | ⟨-, h⟩⟩
        · exact absurd heq hslot
        · exact ⟨hk, h⟩

/-! ## A node with one validator

`alice` is the only validator. The clock stands at slot 40, in epoch 1, and
the node has taken one vote of slot 33. -/

section Sample

def aliceValidator : Validator := ⟨alice, aliceKey, some 1, true⟩

/-- A scheme in which `a1` is a signature of `alice`. -/
def aliceScheme : SignatureScheme where
  validKey pk := pk = aliceKey
  verify pk _ sig := pk = aliceKey && sig = [0xa1]

def aliceNode : QPOS := newQPOS [aliceValidator] 0

def aliceAttestation (slot : Slot) (block target : UInt8) : Attestation where
  slot := slot
  beaconBlockRoot := copyInto 32 [block]
  source := ⟨0, zeroHash⟩
  target := ⟨1, copyInto 32 [target]⟩
  validatorIndex := 0
  signature := [0xa1]
  keyVersion := 0

/-- The node after a vote of slot 33 for block 1 and target 1. -/
def aliceVoted : QPOS :=
  (aliceNode.processAttestation aliceScheme (clockAt 40) (aliceAttestation 33 1 1)).2

theorem aliceVoted_reachable :
    Reachable (step aliceScheme) (fun _ _ => True) (newQPOS [aliceValidator] 0) aliceVoted :=
  Reachable.next (s := aliceNode) (Call.mk (clockAt 40) (.processAttestation (aliceAttestation 33 1 1)))
    .init trivial

theorem aliceVoted_votes :
    (aliceVoted.votesOf 0)[(33 : Slot)]? = some (aliceAttestation 33 1 1) := by
  decide +kernel

theorem aliceVoted_fresh {ev : SlashingEvidence} (h : ev.timestamp = 481 ∨ ev.timestamp = 0) :
    Fresh 481 ev := by
  rcases h with h | h
  · intro _
    rw [h]
    decide
  · intro hpos
    rw [h] at hpos
    exact absurd hpos (lt_irrefl _)

/-- A second block of slot 33 is reported and punished. -/
theorem reported_secondBlock :
    let ev := aliceVoted.doubleVoteEvidence (clockAt 40) aliceValidator (aliceAttestation 33 1 1)
      (aliceAttestation 33 2 1)
    QPOS.Reports (clockAt 40) aliceVoted aliceValidator (aliceAttestation 33 2 1)
      (aliceAttestation 33 1 1) ev ∧
    verifyEvidence aliceScheme 1 aliceManager 481 ev = .ok () := by
  intro ev
  have hr : QPOS.Reports (clockAt 40) aliceVoted aliceValidator (aliceAttestation 33 2 1)
      (aliceAttestation 33 1 1) ev := .sameSlot aliceVoted_votes (by decide)
  refine ⟨hr, (reported_iff aliceVoted_reachable ⟨by rfl, by rfl, by rfl⟩ hr aliceManager_key
    (aliceVoted_fresh (.inl (by rfl)))).mpr ⟨⟨by rfl, by rfl⟩, .inl rfl⟩⟩

/-- A vote of slot 34 for another target of epoch 1 is reported, both votes
are signed with the registered key, and the evidence is refused. -/
theorem reported_secondTarget : let att := aliceAttestation 34 1 2
    let existing := aliceAttestation 33 1 1
    let ev := aliceVoted.surroundEvidence aliceValidator att existing .double
    QPOS.Passes aliceScheme (clockAt 40) aliceVoted aliceValidator att ∧
      QPOS.Reports (clockAt 40) aliceVoted aliceValidator att existing ev ∧
      KeyVerifies aliceScheme 1 aliceKey att ∧ KeyVerifies aliceScheme 1 aliceKey existing ∧
      aliceManager.validators[aliceValidator.address]? = some (some aliceKey) ∧ Fresh 481 ev ∧
      verifyEvidence aliceScheme 1 aliceManager 481 ev ≠ .ok () := by
  refine ⟨⟨by decide +kernel, by decide +kernel, by decide +kernel⟩,
    .conflict (by decide +kernel) (by decide +kernel), by rfl, by rfl, aliceManager_key,
    aliceVoted_fresh (.inr (by rfl)), fun h => ?_⟩
  exact not_proven_double (by decide) (verifyEvidence_eq_ok_iff.mp h).2

end Sample

end Qau.Consensus
