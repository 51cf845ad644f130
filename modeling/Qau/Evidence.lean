import Qau.Attestation

/-!
# Slashing evidence and its verification

`SlashingManager.VerifyEvidence` of `consensus/slashing.go` with its five
verifiers. The question is whether accepted evidence convicts only the guilty. Evidence made of two
votes does: the signatures under the registered key tie the validator to
two conflicting messages (`double_conviction`, `surround_conviction`).
Downtime and VRF evidence carries its own accusation and nothing that
proves it, so acceptance is sound exactly for evidence that the node's own
records back (`Backed`).
-/

namespace Qau.Consensus

/-! ## Evidence -/

inductive SlashingReason where
  | doubleSigning
  | downtime
  | invalidVRF
  | surroundVote
  | doubleVote
  /-- A byte that is none of the constants. -/
  | unknown (code : UInt8)
deriving DecidableEq

/-- `SlashingEvidence`, without the whistleblower that no verifier reads. -/
structure SlashingEvidence where
  reason : SlashingReason
  validatorAddr : Address
  height : UInt64
  vote1 : Option Vote
  vote2 : Option Vote
  missedBlocks : UInt64
  timestamp : Int
deriving DecidableEq

/-- The errors of the verifiers. -/
inductive SlashingError where
  /-- `ErrSlashingEvidenceInvalid` -/
  | evidenceInvalid
  /-- `ErrInvalidVoteSignature` -/
  | invalidVoteSignature
  /-- `ErrValidatorNotFound` -/
  | validatorNotFound
deriving DecidableEq

structure ValidatorSigningInfo where
  missedBlocksCounter : UInt64
deriving DecidableEq

/-- The part of `SlashingManager` that the verifiers and the downtime check
read. `validators` is what `ValidatorManager.GetPublicKey` looks up: the
registered validators with their keys, of which a nil key verifies
nothing. -/
structure SlashingManager where
  validators : Fmap Address (Option Bytes)
  downtimeThreshold : UInt64
  signingInfo : Fmap Address ValidatorSigningInfo

namespace SlashingManager

variable {v vote1 vote2 : Vote} {reason : SlashingReason} {votes : List Vote} {addr : Address}

/-- `GetPublicKey`, and `GetValidator` as far as its error goes. -/
def getPublicKey (sm : SlashingManager) (addr : Address) : Except SlashingError (Option Bytes) :=
  match sm.validators[addr]? with
  | none => .error .validatorNotFound
  | some pk => .ok pk

def getMissedBlocksCount (sm : SlashingManager) (addr : Address) : UInt64 :=
  match sm.signingInfo[addr]? with
  | none => 0
  | some info => info.missedBlocksCounter

theorem getPublicKey_eq_ok {sm : SlashingManager} {pk : Option Bytes} :
    sm.getPublicKey addr = .ok pk ↔ sm.validators[addr]? = some pk := by
  unfold getPublicKey
  split <;> simp_all

end SlashingManager

/-! ## The verifiers -/

section Verifiers

variable (sch : SignatureScheme) (networkID : UInt64) (sm : SlashingManager)

/-- The checks that `VerifyDoubleSigningEvidence` and
`VerifyDoubleVoteEvidence` make on the two votes before the signatures. -/
def conflictingShape (ev : SlashingEvidence) (vote1 vote2 : Vote) : Bool :=
  vote1.validatorAddr = vote2.validatorAddr && vote1.validatorAddr = ev.validatorAddr
    && vote1.height = vote2.height && vote1.round = vote2.round && vote1.type = vote2.type
    && vote1.blockHash ≠ vote2.blockHash

/-- The common body of the two verifiers of conflicting votes; they differ
in the reason they take and in the error of a missing key. -/
def verifyConflictEvidence (reason : SlashingReason) (keyError : SlashingError → SlashingError)
    (ev : SlashingEvidence) : Except SlashingError Unit :=
  if ev.reason ≠ reason then .error .evidenceInvalid
  else match ev.vote1, ev.vote2 with
    | some vote1, some vote2 =>
      if !conflictingShape ev vote1 vote2 then .error .evidenceInvalid
      else match sm.getPublicKey vote1.validatorAddr with
        | .error e => .error (keyError e)
        | .ok pubKey =>
          if !vote1.verify sch networkID pubKey then .error .evidenceInvalid
          else if !vote2.verify sch networkID pubKey then .error .evidenceInvalid
          else .ok ()
    | _, _ => .error .evidenceInvalid

def verifyDoubleSigningEvidence : SlashingEvidence → Except SlashingError Unit :=
  verifyConflictEvidence sch networkID sm .doubleSigning id

def verifyDoubleVoteEvidence : SlashingEvidence → Except SlashingError Unit :=
  verifyConflictEvidence sch networkID sm .doubleVote fun _ => .evidenceInvalid

/-- `VerifyDowntimeEvidence`: the count is the evidence's own. -/
def verifyDowntimeEvidence (ev : SlashingEvidence) : Except SlashingError Unit :=
  if ev.reason ≠ .downtime then .error .evidenceInvalid
  else match sm.getPublicKey ev.validatorAddr with
    | .error e => .error e
    | .ok _ => if ev.missedBlocks < sm.downtimeThreshold then .error .evidenceInvalid else .ok ()

/-- One vote surrounds the other, strictly at both ends. -/
def Surrounds (outer inner : Vote) : Prop :=
  outer.sourceEpoch < inner.sourceEpoch ∧ inner.targetEpoch < outer.targetEpoch

instance (outer inner : Vote) : Decidable (Surrounds outer inner) := instDecidableAnd

/-- The shape conditions of `VerifySurroundVoteEvidence` after the signatures. -/
def surroundShape (ev : SlashingEvidence) (vote1 vote2 : Vote) : Bool :=
  vote1.type = VoteType.attestation && vote2.type = VoteType.attestation
    && vote1.sourceEpoch ≠ 0 && vote2.sourceEpoch ≠ 0
    && vote1.sourceEpoch < vote1.targetEpoch && vote2.sourceEpoch < vote2.targetEpoch
    && vote1.sourceRoot ≠ zeroHash && vote1.targetRoot ≠ zeroHash
    && vote2.sourceRoot ≠ zeroHash && vote2.targetRoot ≠ zeroHash
    && (Surrounds vote1 vote2 || Surrounds vote2 vote1)
    && (ev.height = vote1.height || ev.height = vote2.height)

def verifySurroundVoteEvidence (ev : SlashingEvidence) : Except SlashingError Unit :=
  if ev.reason ≠ .surroundVote then .error .evidenceInvalid
  else match sm.getPublicKey ev.validatorAddr with
    | .error e => .error e
    | .ok _ =>
      if ev.height = 0 then .error .evidenceInvalid
      else match ev.vote1, ev.vote2 with
        | some vote1, some vote2 =>
          if vote1.validatorAddr ≠ vote2.validatorAddr then .error .evidenceInvalid
          else if vote1.validatorAddr ≠ ev.validatorAddr then .error .evidenceInvalid
          else match sm.getPublicKey vote1.validatorAddr with
            | .error e => .error e
            | .ok pubKey =>
              if !vote1.verify sch networkID pubKey then .error .invalidVoteSignature
              else if !vote2.verify sch networkID pubKey then .error .invalidVoteSignature
              else if !surroundShape ev vote1 vote2 then .error .evidenceInvalid
              else .ok ()
        | _, _ => .error .evidenceInvalid

/-- `VerifyInvalidVRFEvidence`: no VRF proof is looked at. -/
def verifyInvalidVRFEvidence (ev : SlashingEvidence) : Except SlashingError Unit :=
  if ev.reason ≠ .invalidVRF then .error .evidenceInvalid
  else if ev.validatorAddr = zeroArr 20 then .error .evidenceInvalid
  else if ev.height = 0 then .error .evidenceInvalid
  else match ev.vote1 with
    | none => .error .evidenceInvalid
    | some vote =>
      if vote.validatorAddr ≠ ev.validatorAddr then .error .evidenceInvalid
      else if vote.height ≠ ev.height then .error .evidenceInvalid
      else match sm.getPublicKey vote.validatorAddr with
        | .error _ => .error .evidenceInvalid
        | .ok pubKey =>
          if !vote.verify sch networkID pubKey then .error .evidenceInvalid else .ok ()

/-- The freshness window of `VerifyEvidence`: one week back, ten seconds
ahead, and no check of a timestamp that is not positive. `now` is the block
time, or the clock when the caller has none. -/
def Fresh (now : Int) (ev : SlashingEvidence) : Prop :=
  0 < ev.timestamp → now - ev.timestamp ≤ 7 * 24 * 60 * 60 ∧ ev.timestamp ≤ now + 10

instance (now : Int) (ev : SlashingEvidence) : Decidable (Fresh now ev) :=
  inferInstanceAs (Decidable (_ → _))

def verifyEvidence (now : Int) (ev : SlashingEvidence) : Except SlashingError Unit :=
  if ¬ Fresh now ev then .error .evidenceInvalid
  else match ev.reason with
    | .doubleSigning => verifyDoubleSigningEvidence sch networkID sm ev
    | .downtime => verifyDowntimeEvidence sm ev
    | .surroundVote => verifySurroundVoteEvidence sch networkID sm ev
    | .invalidVRF => verifyInvalidVRFEvidence sch networkID sm ev
    | .doubleVote => verifyDoubleVoteEvidence sch networkID sm ev
    | .unknown _ => .error .evidenceInvalid

end Verifiers

/-! ## What acceptance means -/

section Accept

variable {sch : SignatureScheme} {networkID : UInt64} {sm : SlashingManager}
  {ev : SlashingEvidence} {now : Int}

/-- A vote with a valid signature under the key registered for `addr`. -/
def SignedBy (sch : SignatureScheme) (networkID : UInt64) (sm : SlashingManager) (addr : Address)
    (v : Vote) : Prop :=
  ∃ pk, sm.validators[addr]? = some (some pk) ∧ v.signature ≠ [] ∧
    sch.verify pk (v.signedMessage networkID) v.signature = true

theorem signedBy_of_verify {pubKey : Option Bytes} (hk : sm.getPublicKey addr = .ok pubKey)
    (hv : v.verify sch networkID pubKey = true) : SignedBy sch networkID sm addr v := by
  obtain ⟨pk, rfl, hsig, hv⟩ := Vote.verify_eq_true.mp hv
  exact ⟨pk, SlashingManager.getPublicKey_eq_ok.mp hk, hsig, hv⟩

/-- What both double-vote verifiers establish. -/
structure DoubleVoteProof (sch : SignatureScheme) (networkID : UInt64) (sm : SlashingManager)
    (ev : SlashingEvidence) (vote1 vote2 : Vote) : Prop where
  vote1_eq : ev.vote1 = some vote1
  vote2_eq : ev.vote2 = some vote2
  shape : conflictingShape ev vote1 vote2 = true
  signed1 : SignedBy sch networkID sm ev.validatorAddr vote1
  signed2 : SignedBy sch networkID sm ev.validatorAddr vote2

theorem conflictingShape_eq_true : conflictingShape ev vote1 vote2 = true ↔
      (vote1.validatorAddr = vote2.validatorAddr ∧ vote1.validatorAddr = ev.validatorAddr) ∧
        vote1.height = vote2.height ∧ vote1.round = vote2.round ∧ vote1.type = vote2.type ∧
        vote1.blockHash ≠ vote2.blockHash := by
  simp only [conflictingShape, Bool.and_eq_true, decide_eq_true_eq]
  tauto

theorem verifyConflictEvidence_eq_ok_iff {keyError : SlashingError → SlashingError}
    (hr : ev.reason = reason) :
    verifyConflictEvidence sch networkID sm reason keyError ev = .ok () ↔
      ∃ vote1 vote2, DoubleVoteProof sch networkID sm ev vote1 vote2 := by
  unfold verifyConflictEvidence
  rw [if_neg (not_not.mpr hr)]
  constructor
  · intro h
    split at h
    · next vote1 vote2 h1 h2 =>
      split_ifs at h with hs
      rw [Bool.not_eq_true, Bool.not_eq_false'] at hs
      have haddr := (conflictingShape_eq_true.mp hs).1.2
      split at h
      · cases h
      · next pubKey hk =>
        split_ifs at h with hv hv'
        rw [Bool.not_eq_true, Bool.not_eq_false'] at hv hv'
        rw [haddr] at hk
        exact ⟨vote1, vote2, h1, h2, hs, signedBy_of_verify hk hv, signedBy_of_verify hk hv'⟩
    · cases h
  · rintro ⟨vote1, vote2, h⟩
    obtain ⟨pk, hk, hsig, hv⟩ := h.signed1
    obtain ⟨pk', hk', hsig', hv'⟩ := h.signed2
    obtain rfl : pk = pk' := by simpa [hk] using hk'
    have haddr := (conflictingShape_eq_true.mp h.shape).1.2
    simp [h.vote1_eq, h.vote2_eq, h.shape, haddr, SlashingManager.getPublicKey, hk, Vote.verify,
      hsig, hsig', hv, hv']

/-- What `VerifySurroundVoteEvidence` establishes. -/
structure SurroundProof (sch : SignatureScheme) (networkID : UInt64) (sm : SlashingManager)
    (ev : SlashingEvidence) (vote1 vote2 : Vote) : Prop where
  vote1_eq : ev.vote1 = some vote1
  vote2_eq : ev.vote2 = some vote2
  height : ev.height ≠ 0
  addr1 : vote1.validatorAddr = ev.validatorAddr
  addr2 : vote2.validatorAddr = ev.validatorAddr
  shape : surroundShape ev vote1 vote2 = true
  signed1 : SignedBy sch networkID sm ev.validatorAddr vote1
  signed2 : SignedBy sch networkID sm ev.validatorAddr vote2

theorem verifySurroundVoteEvidence_eq_ok_iff (hr : ev.reason = .surroundVote) :
    verifySurroundVoteEvidence sch networkID sm ev = .ok () ↔
      ∃ vote1 vote2, SurroundProof sch networkID sm ev vote1 vote2 := by
  unfold verifySurroundVoteEvidence
  rw [if_neg (not_not.mpr hr)]
  constructor
  · intro h
    split at h
    · cases h
    split_ifs at h with hh
    split at h
    · next vote1 vote2 h1 h2 =>
      split_ifs at h with ha ha' hs
      · split at h
        · cases h
        · split_ifs at h
      rw [not_not] at ha ha'
      split at h
      · cases h
      · next pubKey hk =>
        split_ifs at h with hv hv'
        rw [Bool.not_eq_true, Bool.not_eq_false'] at hv hv' hs
        rw [ha'] at hk
        exact ⟨vote1, vote2, h1, h2, hh, ha', ha ▸ ha', hs, signedBy_of_verify hk hv,
          signedBy_of_verify hk hv'⟩
    · cases h
  · rintro ⟨vote1, vote2, h⟩
    obtain ⟨pk, hk, hsig, hv⟩ := h.signed1
    obtain ⟨pk', hk', hsig', hv'⟩ := h.signed2
    obtain rfl : pk = pk' := by simpa [hk] using hk'
    simp [h.vote1_eq, h.vote2_eq, h.height, h.addr1, h.addr2, h.shape,
      SlashingManager.getPublicKey, hk, Vote.verify, hsig, hsig', hv, hv']

theorem verifyDowntimeEvidence_eq_ok_iff (hr : ev.reason = .downtime) :
    verifyDowntimeEvidence sm ev = .ok () ↔
      ev.validatorAddr ∈ sm.validators ∧ sm.downtimeThreshold ≤ ev.missedBlocks := by
  unfold verifyDowntimeEvidence SlashingManager.getPublicKey
  rw [if_neg (not_not.mpr hr), ← Std.ExtTreeMap.isSome_getElem?_iff_mem]
  cases sm.validators[ev.validatorAddr]? with
  | none => simp
  | some pk =>
    by_cases h : ev.missedBlocks < sm.downtimeThreshold
    · simp [h]
    · simp [h, UInt64.not_lt.mp h]

/-- What `VerifyInvalidVRFEvidence` establishes. -/
structure VRFProof (sch : SignatureScheme) (networkID : UInt64) (sm : SlashingManager)
    (ev : SlashingEvidence) (vote : Vote) : Prop where
  vote_eq : ev.vote1 = some vote
  addrNonzero : ev.validatorAddr ≠ zeroArr 20
  height : ev.height ≠ 0
  addr : vote.validatorAddr = ev.validatorAddr
  voteHeight : vote.height = ev.height
  signed : SignedBy sch networkID sm ev.validatorAddr vote

theorem verifyInvalidVRFEvidence_eq_ok_iff (hr : ev.reason = .invalidVRF) :
    verifyInvalidVRFEvidence sch networkID sm ev = .ok () ↔
      ∃ vote, VRFProof sch networkID sm ev vote := by
  unfold verifyInvalidVRFEvidence
  rw [if_neg (not_not.mpr hr)]
  constructor
  · intro h
    split_ifs at h with hz hh
    split at h
    · cases h
    · next vote hvote =>
      split_ifs at h with ha hh'
      rw [not_not] at ha hh'
      split at h
      · cases h
      · next pubKey hk =>
        split_ifs at h with hv
        rw [Bool.not_eq_true, Bool.not_eq_false'] at hv
        exact ⟨vote, hvote, hz, hh, ha, hh', signedBy_of_verify (ha ▸ hk) hv⟩
  · rintro ⟨vote, h⟩
    obtain ⟨pk, hk, hsig, hv⟩ := h.signed
    simp [h.vote_eq, h.addrNonzero, h.height, h.addr, h.voteHeight,
      SlashingManager.getPublicKey, hk, Vote.verify, hsig, hv]

/-- What fresh evidence has to prove, reason by reason. -/
def Proven (sch : SignatureScheme) (networkID : UInt64) (sm : SlashingManager)
    (ev : SlashingEvidence) : Prop :=
  match ev.reason with
  | .doubleSigning | .doubleVote => ∃ vote1 vote2, DoubleVoteProof sch networkID sm ev vote1 vote2
  | .surroundVote => ∃ vote1 vote2, SurroundProof sch networkID sm ev vote1 vote2
  | .invalidVRF => ∃ vote, VRFProof sch networkID sm ev vote
  | .downtime => ev.validatorAddr ∈ sm.validators ∧ sm.downtimeThreshold ≤ ev.missedBlocks
  | .unknown _ => False

theorem verifyEvidence_eq_ok_iff :
    verifyEvidence sch networkID sm now ev = .ok () ↔ Fresh now ev ∧ Proven sch networkID sm ev := by
  unfold verifyEvidence Proven
  by_cases hf : Fresh now ev
  · rw [if_neg (not_not.mpr hf), and_iff_right hf]
    cases hr : ev.reason with
    | doubleSigning | doubleVote => exact verifyConflictEvidence_eq_ok_iff hr
    | downtime => exact verifyDowntimeEvidence_eq_ok_iff hr
    | invalidVRF => exact verifyInvalidVRFEvidence_eq_ok_iff hr
    | surroundVote => exact verifySurroundVoteEvidence_eq_ok_iff hr
    | unknown code => simp
  · simp [hf]

end Accept

/-! ## Guilt -/

section Guilt

variable (Signed : Bytes → Bytes → Prop) (BadVRF : Address → Prop)
  (networkID : UInt64) (sm : SlashingManager)

/-- The holder of `pk` signed two votes of one kind, height and round for
different blocks, as two different messages. The round of an attestation is
not signed: for attestations the slot and the blocks are what conflicts. -/
def SignedConflict (pk : Bytes) : Prop :=
  ∃ v w : Vote, Signed pk (v.signedMessage networkID) ∧ Signed pk (w.signedMessage networkID) ∧
    v.signedMessage networkID ≠ w.signedMessage networkID ∧
    v.type = w.type ∧ v.height = w.height ∧ v.round = w.round ∧ v.blockHash ≠ w.blockHash

/-- The holder of `pk` signed two attestations of which one surrounds the
other. -/
def SignedSurround (pk : Bytes) : Prop :=
  ∃ v w : Vote, Signed pk (v.signedMessage networkID) ∧ Signed pk (w.signedMessage networkID) ∧
    v.signedMessage networkID ≠ w.signedMessage networkID ∧
    v.type = VoteType.attestation ∧ w.type = VoteType.attestation ∧ Surrounds v w

/-- The offence that each reason stands for, of the validator the evidence
names. `Signed pk m` says that the holder of `pk` chose to sign `m`, and
`BadVRF a` that validator `a` produced a VRF proof that fails. -/
def Guilty (ev : SlashingEvidence) : Prop :=
  match ev.reason with
  | .doubleSigning | .doubleVote =>
    ∃ pk, sm.validators[ev.validatorAddr]? = some (some pk) ∧ SignedConflict Signed networkID pk
  | .surroundVote =>
    ∃ pk, sm.validators[ev.validatorAddr]? = some (some pk) ∧ SignedSurround Signed networkID pk
  | .invalidVRF => BadVRF ev.validatorAddr
  | .downtime => sm.downtimeThreshold ≤ sm.getMissedBlocksCount ev.validatorAddr
  | .unknown _ => False

/-- The accusations that no vote proves are backed by what the node knows:
a downtime count that reaches the threshold by the node's own counter, and
signed votes presented as VRF evidence by a failed proof. -/
def Backed (sch : SignatureScheme) (now : Int) (ev : SlashingEvidence) : Prop :=
  Fresh now ev →
    (ev.reason = .downtime → ev.validatorAddr ∈ sm.validators →
      sm.downtimeThreshold ≤ ev.missedBlocks →
        sm.downtimeThreshold ≤ sm.getMissedBlocksCount ev.validatorAddr) ∧
    (ev.reason = .invalidVRF → ∀ vote, VRFProof sch networkID sm ev vote → BadVRF ev.validatorAddr)

variable {Signed BadVRF networkID sm} {sch : SignatureScheme} {now : Int} {ev : SlashingEvidence}
  (unforgeable : ∀ pk m sig, sch.verify pk m sig = true → Signed pk m)
include unforgeable

theorem double_conviction (h : DoubleVoteProof sch networkID sm ev vote1 vote2) :
    ∃ pk, sm.validators[ev.validatorAddr]? = some (some pk) ∧
      SignedConflict Signed networkID pk := by
  obtain ⟨pk, hk, -, hv⟩ := h.signed1
  obtain ⟨pk', hk', -, hv'⟩ := h.signed2
  obtain rfl : pk = pk' := by simpa [hk] using hk'
  obtain ⟨-, hheight, hround, htype, hblock⟩ := conflictingShape_eq_true.mp h.shape
  refine ⟨pk, hk, vote1, vote2, unforgeable _ _ _ hv, unforgeable _ _ _ hv', ?_, htype, hheight,
    hround, hblock⟩
  exact fun hm => hblock (Vote.blockHash_eq_of_signedMessage_eq htype hm)

theorem surround_conviction (h : SurroundProof sch networkID sm ev vote1 vote2) :
    ∃ pk, sm.validators[ev.validatorAddr]? = some (some pk) ∧
      SignedSurround Signed networkID pk := by
  obtain ⟨pk, hk, -, hv⟩ := h.signed1
  obtain ⟨pk', hk', -, hv'⟩ := h.signed2
  obtain rfl : pk = pk' := by simpa [hk] using hk'
  have hs := h.shape
  simp only [surroundShape, Bool.and_eq_true, Bool.or_eq_true, decide_eq_true_eq] at hs
  obtain ⟨⟨⟨⟨⟨⟨⟨⟨⟨⟨⟨ht1, ht2⟩, -⟩, -⟩, -⟩, -⟩, -⟩, -⟩, -⟩, -⟩, hsur⟩, -⟩ := hs
  have hne : vote1.signedMessage networkID ≠ vote2.signedMessage networkID := by
    intro hm
    obtain ⟨hsource, -⟩ := Vote.epochs_eq_of_signedMessage_eq ht1 ht2 hm
    rcases hsur with hsur | hsur
    · exact UInt64.ne_of_lt hsur.1 hsource
    · exact UInt64.ne_of_lt hsur.1 hsource.symm
  rcases hsur with hsur | hsur
  · exact ⟨pk, hk, vote1, vote2, unforgeable _ _ _ hv, unforgeable _ _ _ hv', hne, ht1, ht2, hsur⟩
  · exact ⟨pk, hk, vote2, vote1, unforgeable _ _ _ hv', unforgeable _ _ _ hv, hne.symm, ht2, ht1,
      hsur⟩

/-- Accepted evidence convicts a guilty validator, reason by reason, as far
as it is backed. -/
theorem guilty_of_verifyEvidence (hb : Backed BadVRF networkID sm sch now ev)
    (h : verifyEvidence sch networkID sm now ev = .ok ()) :
    Guilty Signed BadVRF networkID sm ev := by
  obtain ⟨hf, hp⟩ := verifyEvidence_eq_ok_iff.mp h
  obtain ⟨hdown, hvrf⟩ := hb hf
  unfold Guilty
  unfold Proven at hp
  cases hr : ev.reason with
  | doubleSigning | doubleVote =>
    rw [hr] at hp
    obtain ⟨vote1, vote2, hp⟩ := hp
    exact double_conviction unforgeable hp
  | surroundVote =>
    rw [hr] at hp
    obtain ⟨vote1, vote2, hp⟩ := hp
    exact surround_conviction unforgeable hp
  | downtime =>
    rw [hr] at hp
    exact hdown hr hp.1 hp.2
  | invalidVRF =>
    rw [hr] at hp
    obtain ⟨vote, hp⟩ := hp
    exact hvrf hr vote hp
  | unknown code =>
    rw [hr] at hp
    exact hp

omit unforgeable in
/-- Evidence that is not backed is accepted all the same. -/
theorem backed_of_sound
    (h : verifyEvidence sch networkID sm now ev = .ok () → Guilty Signed BadVRF networkID sm ev) :
    Backed BadVRF networkID sm sch now ev := by
  intro hf
  unfold Guilty at h
  rw [verifyEvidence_eq_ok_iff, and_iff_right hf] at h
  unfold Proven at h
  constructor
  · intro hr hreg hmissed
    rw [hr] at h
    exact h ⟨hreg, hmissed⟩
  · intro hr vote hp
    rw [hr] at h
    exact h ⟨vote, hp⟩

/-- A validator that signs one vote of a kind per height and round, and no
surrounding attestations. -/
structure HonestSigner (Signed : Bytes → Bytes → Prop) (networkID : UInt64) (pk : Bytes) :
    Prop where
  onePerSlot : ∀ v w : Vote, Signed pk (v.signedMessage networkID) →
    Signed pk (w.signedMessage networkID) → v.type = w.type → v.height = w.height →
    v.round = w.round → v.signedMessage networkID = w.signedMessage networkID
  noSurround : ∀ v w : Vote, Signed pk (v.signedMessage networkID) →
    Signed pk (w.signedMessage networkID) → v.type = VoteType.attestation →
    w.type = VoteType.attestation → ¬ Surrounds v w

omit unforgeable in
theorem not_guilty_of_honest {pk : Bytes} (hk : sm.validators[addr]? = some (some pk))
    (hh : HonestSigner Signed networkID pk) (hvrf : ¬ BadVRF addr)
    (hmissed : sm.getMissedBlocksCount addr < sm.downtimeThreshold)
    (haddr : ev.validatorAddr = addr) : ¬ Guilty Signed BadVRF networkID sm ev := by
  unfold Guilty
  rw [haddr, hk]
  split
  · rintro ⟨pk', hpk, v, w, hv, hw, hne, ht, hheight, hround, -⟩
    obtain rfl : pk = pk' := by simpa using hpk
    exact hne (hh.onePerSlot v w hv hw ht hheight hround)
  · rintro ⟨pk', hpk, v, w, hv, hw, hne, ht, hheight, hround, -⟩
    obtain rfl : pk = pk' := by simpa using hpk
    exact hne (hh.onePerSlot v w hv hw ht hheight hround)
  · rintro ⟨pk', hpk, v, w, hv, hw, -, hvt, hwt, hs⟩
    obtain rfl : pk = pk' := by simpa using hpk
    exact hh.noSurround v w hv hw hvt hwt hs
  · exact hvrf
  · exact UInt64.not_le.mpr hmissed
  · exact id

/-- Acceptance is sound for exactly the backed evidence, and backed evidence
never convicts an honest validator. -/
theorem verifyEvidence_sound_iff : (∀ ev, (verifyEvidence sch networkID sm now ev = .ok () →
        Guilty Signed BadVRF networkID sm ev) ↔ Backed BadVRF networkID sm sch now ev) ∧
    (∀ addr pk, sm.validators[addr]? = some (some pk) → HonestSigner Signed networkID pk →
      ¬ BadVRF addr → sm.getMissedBlocksCount addr < sm.downtimeThreshold →
      ∀ ev : SlashingEvidence, ev.validatorAddr = addr → Backed BadVRF networkID sm sch now ev →
        verifyEvidence sch networkID sm now ev ≠ .ok ()) := by
  constructor
  · exact fun ev => ⟨backed_of_sound, guilty_of_verifyEvidence unforgeable⟩
  · intro addr pk hk hh hvrf hmissed ev haddr hb hok
    exact not_guilty_of_honest hk hh hvrf hmissed haddr
      (guilty_of_verifyEvidence unforgeable hb hok)

end Guilt

/-! ## A validator with one key and two slots -/

section Sample

def alice : Address := copyInto 20 [0xa1]

def aliceKey : Bytes := [0xa1]

/-- An attestation vote of `alice` at slot 33 for the block `hash`. -/
def aliceVote (hash : Hash) (signature : Bytes) : Vote where
  type := VoteType.attestation
  height := 33
  round := 0
  blockHash := hash
  validatorAddr := alice
  signature := signature
  sourceEpoch := 0
  targetEpoch := 1
  sourceRoot := zeroHash
  targetRoot := copyInto 32 [1]
  keyVersion := 0
  validatorIndex := 0

def honestVote : Vote := aliceVote (copyInto 32 [2]) [1]

def secondVote : Vote := aliceVote (copyInto 32 [3]) [2]

/-- The scheme of a holder of `aliceKey` who made the given signatures. -/
def tableScheme (votes : List Vote) : SignatureScheme where
  validKey pk := pk = aliceKey
  verify pk m sig := pk = aliceKey ∧ ∃ v ∈ votes, m = v.signedMessage 1 ∧ sig = v.signature

/-- What that holder signed. -/
def tableSigned (votes : List Vote) (pk m : Bytes) : Prop :=
  pk = aliceKey ∧ ∃ v ∈ votes, m = v.signedMessage 1

theorem tableScheme_unforgeable (votes : List Vote) (pk m sig : Bytes)
    (h : (tableScheme votes).verify pk m sig = true) : tableSigned votes pk m := by
  obtain ⟨hk, v, hv, hm, -⟩ := of_decide_eq_true h
  exact ⟨hk, v, hv, hm⟩

theorem tableScheme_verify (hv : v ∈ votes) :
    (tableScheme votes).verify aliceKey (v.signedMessage 1) v.signature = true :=
  decide_eq_true ⟨rfl, v, hv, rfl, rfl⟩

/-- `alice` is registered and has missed no block. -/
def aliceManager : SlashingManager where
  validators := (∅ : Fmap Address (Option Bytes)).insert alice (some aliceKey)
  downtimeThreshold := 100
  signingInfo := ∅

theorem aliceManager_key : aliceManager.validators[alice]? = some (some aliceKey) :=
  Fmap.getElem?_insert_self ..

theorem aliceManager_missed : aliceManager.getMissedBlocksCount alice = 0 := by
  simp [SlashingManager.getMissedBlocksCount, aliceManager]

def aliceEvidence (reason : SlashingReason) (vote1 vote2 : Option Vote) (missed : UInt64) :
    SlashingEvidence where
  reason := reason
  validatorAddr := alice
  height := 33
  vote1 := vote1
  vote2 := vote2
  missedBlocks := missed
  timestamp := 0

theorem aliceEvidence_fresh {vote1 vote2 : Option Vote} {missed : UInt64} :
    Fresh 0 (aliceEvidence reason vote1 vote2 missed) := fun h => absurd h (lt_irrefl (0 : Int))

theorem aliceVote_signedBy (hv : v ∈ votes) (hs : v.signature ≠ []) :
    SignedBy (tableScheme votes) 1 aliceManager alice v :=
  ⟨aliceKey, aliceManager_key, hs, tableScheme_verify hv⟩

/-- Two votes for different blocks of slot 33 convict `alice`. -/
theorem verifyEvidence_sound_twoVotes :
    let ev := aliceEvidence .doubleVote (some honestVote) (some secondVote) 0
    let votes := [honestVote, secondVote]
    verifyEvidence (tableScheme votes) 1 aliceManager 0 ev = .ok () ∧
      Guilty (tableSigned votes) (fun _ => False) 1 aliceManager ev := by
  intro ev votes
  have hok : verifyEvidence (tableScheme votes) 1 aliceManager 0 ev = .ok () :=
    verifyEvidence_eq_ok_iff.mpr ⟨aliceEvidence_fresh, honestVote, secondVote, rfl, rfl, by decide,
      aliceVote_signedBy (by simp [votes]) (by decide),
      aliceVote_signedBy (by simp [votes]) (by decide)⟩
  refine ⟨hok, ?_⟩
  refine ((verifyEvidence_sound_iff (tableScheme_unforgeable votes)).1 ev).mpr ?_ hok
  exact fun _ => ⟨fun h => (by cases h), fun h => (by cases h)⟩

theorem honestVote_honest : HonestSigner (tableSigned [honestVote]) 1 aliceKey := by
  have hone : ∀ v : Vote, tableSigned [honestVote] aliceKey (v.signedMessage 1) →
      v.signedMessage 1 = honestVote.signedMessage 1 := by
    rintro v ⟨-, w, hw, hm⟩
    rw [List.mem_singleton.mp hw] at hm
    exact hm
  constructor
  · intro v w hv hw _ _ _
    rw [hone v hv, hone w hw]
  · intro v w hv hw hvt hwt hs
    have h := Vote.epochs_eq_of_signedMessage_eq hvt hwt ((hone v hv).trans (hone w hw).symm)
    exact UInt64.ne_of_lt hs.1 h.1

/-- One honest vote is enough to be convicted of a bad VRF proof, and a
number in the evidence is enough to be convicted of downtime. -/
theorem verifyEvidence_honestVote : HonestSigner (tableSigned [honestVote]) 1 aliceKey ∧
      aliceManager.getMissedBlocksCount alice = 0 ∧
      (let ev := aliceEvidence .invalidVRF (some honestVote) none 0
       verifyEvidence (tableScheme [honestVote]) 1 aliceManager 0 ev = .ok () ∧
        ¬ Guilty (tableSigned [honestVote]) (fun _ => False) 1 aliceManager ev) ∧
      (let ev := aliceEvidence .downtime none none 100
       verifyEvidence (tableScheme [honestVote]) 1 aliceManager 0 ev = .ok () ∧
        ¬ Guilty (tableSigned [honestVote]) (fun _ => False) 1 aliceManager ev) := by
  have hnot : ∀ ev : SlashingEvidence, ev.validatorAddr = alice →
      ¬ Guilty (tableSigned [honestVote]) (fun _ => False) 1 aliceManager ev := fun ev =>
    not_guilty_of_honest aliceManager_key honestVote_honest id (by rw [aliceManager_missed]; decide)
  refine ⟨honestVote_honest, aliceManager_missed, ⟨?_, hnot _ rfl⟩, ?_, hnot _ rfl⟩
  · exact verifyEvidence_eq_ok_iff.mpr ⟨aliceEvidence_fresh, honestVote, rfl, by decide, by decide,
      rfl, rfl, aliceVote_signedBy (List.mem_singleton.mpr rfl) (by decide)⟩
  · exact verifyEvidence_eq_ok_iff.mpr ⟨aliceEvidence_fresh, Std.ExtTreeMap.mem_insert_self,
      by decide⟩

end Sample

end Qau.Consensus
