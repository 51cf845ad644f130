import Qau.Account

/-!
# Attestations, votes and the messages they sign

The two representations of a validator's vote: the `Attestation` that the
consensus engine processes (`consensus/validator.go`), and the `Vote` that
the slashing manager judges (`consensus/voting.go`). An attestation becomes
a vote by `attestationToVote`; its signature stays valid because a vote of
attestation type signs the same bytes as the attestation
(`signedMessage_attestationToVote`).
-/

namespace Qau.Consensus

abbrev Slot := UInt64
abbrev Epoch := UInt64

/-- `AttestationCheckpoint`. -/
structure Checkpoint where
  epoch : Epoch
  root : Hash
deriving DecidableEq

/-- `Attestation`. The index is a Go `int` and may be negative. -/
structure Attestation where
  slot : Slot
  beaconBlockRoot : Hash
  source : Checkpoint
  target : Checkpoint
  validatorIndex : Int
  signature : Bytes
  keyVersion : UInt64
deriving DecidableEq

/-- `VoteType`: a byte of which three values are named; `VotePrevote` is not
used. -/
abbrev VoteType := UInt8

namespace VoteType

def precommit : VoteType := 1
def attestation : VoteType := 2

end VoteType

structure Vote where
  type : VoteType
  height : UInt64
  round : UInt32
  blockHash : Hash
  validatorAddr : Address
  signature : Bytes
  sourceEpoch : Epoch
  targetEpoch : Epoch
  sourceRoot : Hash
  targetRoot : Hash
  keyVersion : UInt64
  validatorIndex : Int
deriving DecidableEq

/-! ## Signed messages -/

/-- `AttestationDomainSeparator`, the bytes of `QUANTAUREUM_ATT_V1`. -/
def attestationDomainSeparator : Bytes :=
  [0x51, 0x55, 0x41, 0x4e, 0x54, 0x41, 0x55, 0x52, 0x45, 0x55, 0x4d, 0x5f, 0x41, 0x54, 0x54, 0x5f,
    0x56, 0x31]

variable {networkID : UInt64} {v w : Vote}

/-- `voteDomainSeparator`, the bytes of `QUANTAUREUM_VOTE_V2`. -/
def voteDomainSeparator : Bytes :=
  [0x51, 0x55, 0x41, 0x4e, 0x54, 0x41, 0x55, 0x52, 0x45, 0x55, 0x4d, 0x5f, 0x56, 0x4f, 0x54, 0x45,
    0x5f, 0x56, 0x32]

/-- `binary.BigEndian.PutUint64`. -/
def putUint64 (n : UInt64) : Bytes := bigEndian 8 n.toNat

@[simp] theorem putUint64_length (n : UInt64) : (putUint64 n).length = 8 := bigEndian_length _ _

theorem putUint64_inj {m n : UInt64} (h : putUint64 m = putUint64 n) : m = n :=
  UInt64.toNat_inj.mp (bigEndian_inj m.toNat_lt n.toNat_lt h)

/-- What both layouts of an attestation have before the validator index. -/
def attestationPayload (networkID : UInt64) (att : Attestation) : Bytes :=
  attestationDomainSeparator ++ putUint64 networkID ++ putUint64 att.slot
    ++ putUint64 att.keyVersion ++ att.beaconBlockRoot.toList
    ++ putUint64 att.source.epoch ++ att.source.root.toList
    ++ putUint64 att.target.epoch ++ att.target.root.toList

/-- `attestationSigningData`: what `SignAttestation` signs. -/
def attestationSigningData (networkID : UInt64) (att : Attestation) : Bytes :=
  attestationPayload networkID att ++
    (if att.validatorIndex < 0 then putUint64 0
      else putUint64 (UInt64.ofInt att.validatorIndex))

/-- `buildAttestationMessage`: the slashing path's copy of that layout. -/
def buildAttestationMessage (networkID : UInt64) (att : Attestation) : Bytes :=
  attestationPayload networkID att ++
    putUint64 (if att.validatorIndex > 0 then UInt64.ofInt att.validatorIndex else 0)

theorem buildAttestationMessage_eq (networkID : UInt64) (att : Attestation) :
    buildAttestationMessage networkID att = attestationSigningData networkID att := by
  unfold buildAttestationMessage attestationSigningData
  rcases lt_trichotomy att.validatorIndex 0 with h | h | h
  · rw [if_neg (by omega), if_pos h]
  · rw [if_neg (by omega), if_neg (by omega), h]
    rfl
  · rw [if_pos h, if_neg (by omega)]

namespace Vote

def voteMessage (networkID : UInt64) (v : Vote) : Bytes :=
  voteDomainSeparator ++ putUint64 networkID ++ [v.type] ++ putUint64 v.sourceEpoch
    ++ putUint64 v.targetEpoch ++ putUint64 v.height ++ bigEndian 4 v.round.toNat
    ++ v.blockHash.toList ++ v.validatorAddr.toList

def toAttestationForSigning (v : Vote) : Attestation where
  slot := v.height
  beaconBlockRoot := v.blockHash
  source := ⟨v.sourceEpoch, v.sourceRoot⟩
  target := ⟨v.targetEpoch, v.targetRoot⟩
  validatorIndex := v.validatorIndex
  signature := v.signature
  keyVersion := v.keyVersion

/-- `SignedMessage`: the layout depends on the vote type, and the one of an
attestation holds neither the type nor the round. -/
def signedMessage (networkID : UInt64) (v : Vote) : Bytes :=
  if v.type = VoteType.attestation then buildAttestationMessage networkID v.toAttestationForSigning
  else v.voteMessage networkID

/-- Votes of one type that sign the same bytes are for the same block. -/
theorem blockHash_eq_of_signedMessage_eq (ht : v.type = w.type)
    (h : v.signedMessage networkID = w.signedMessage networkID) : v.blockHash = w.blockHash := by
  unfold signedMessage at h
  rw [← ht] at h
  split_ifs at h
  · simp only [buildAttestationMessage, attestationPayload, toAttestationForSigning,
      List.append_assoc] at h
    have h := (List.append_inj (List.append_inj (List.append_inj (List.append_inj h rfl).2
      (by simp)).2 (by simp)).2 (by simp)).2
    exact List.Vector.eq _ _ (List.append_inj h (by simp)).1
  · simp only [voteMessage, List.append_assoc] at h
    have h := (List.append_inj (List.append_inj (List.append_inj h rfl).2 (by simp)).2 (by simp)).2
    have h := (List.append_inj (List.append_inj (List.append_inj (List.append_inj h (by simp)).2
      (by simp)).2 (by simp)).2 (by simp)).2
    exact List.Vector.eq _ _ (List.append_inj h (by simp)).1

/-- Attestation votes that sign the same bytes have the same epochs. -/
theorem epochs_eq_of_signedMessage_eq (hv : v.type = VoteType.attestation)
    (hw : w.type = VoteType.attestation) (h : v.signedMessage networkID = w.signedMessage networkID)
    : v.sourceEpoch = w.sourceEpoch ∧ v.targetEpoch = w.targetEpoch := by
  unfold signedMessage at h
  rw [if_pos hv, if_pos hw] at h
  simp only [buildAttestationMessage, attestationPayload, toAttestationForSigning,
    List.append_assoc] at h
  have h := (List.append_inj (List.append_inj (List.append_inj (List.append_inj h rfl).2
    (by simp)).2 (by simp)).2 (by simp)).2
  obtain ⟨hsource, h⟩ := List.append_inj (List.append_inj h (by simp)).2 (by simp)
  obtain ⟨htarget, -⟩ := List.append_inj (List.append_inj h (by simp)).2 (by simp)
  exact ⟨putUint64_inj hsource, putUint64_inj htarget⟩

end Vote

/-! ## From an attestation to a vote -/

def attestationToVote (att : Attestation) (validatorAddr : Address) : Vote where
  type := VoteType.attestation
  height := att.slot
  round := 0
  blockHash := att.beaconBlockRoot
  validatorAddr := validatorAddr
  signature := att.signature
  sourceEpoch := att.source.epoch
  targetEpoch := att.target.epoch
  sourceRoot := att.source.root
  targetRoot := att.target.root
  keyVersion := att.keyVersion
  validatorIndex := att.validatorIndex

theorem toAttestationForSigning_attestationToVote (att : Attestation) (addr : Address) :
    (attestationToVote att addr).toAttestationForSigning = att := rfl

theorem signedMessage_attestationToVote (networkID : UInt64) (att : Attestation) (addr : Address) :
    (attestationToVote att addr).signedMessage networkID = attestationSigningData networkID att := by
  unfold Vote.signedMessage
  rw [if_pos (show (attestationToVote att addr).type = VoteType.attestation from rfl),
    toAttestationForSigning_attestationToVote, buildAttestationMessage_eq]

/-! ## Signatures -/

/-- Dilithium3, which is not part of the modelled code: which byte strings
`PublicKeyFromBytes` takes for a key, and `crypto.Verify`. -/
structure SignatureScheme where
  validKey : Bytes → Bool
  verify (publicKey message signature : Bytes) : Bool

def Vote.verify (sch : SignatureScheme) (networkID : UInt64) (v : Vote) (publicKey : Option Bytes) :
    Bool :=
  match publicKey with
  | none => false
  | some pk => v.signature ≠ [] && sch.verify pk (v.signedMessage networkID) v.signature

theorem Vote.verify_eq_true {sch : SignatureScheme} {publicKey : Option Bytes} :
    v.verify sch networkID publicKey = true ↔ ∃ pk, publicKey = some pk ∧ v.signature ≠ [] ∧
      sch.verify pk (v.signedMessage networkID) v.signature = true := by
  cases publicKey <;> simp [Vote.verify]

end Qau.Consensus
