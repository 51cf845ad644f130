import Qau.WireCase
import Qau.Account

/-!
# The transaction codec

Model of `MarshalTransaction`, `UnmarshalTransaction`, `Hash` and
`SigningHash` of `encoding/transaction.go` and `encoding/proto.go`.
A nil and an empty byte slice are one value, a nil integer is `none`, and
the blob sidecar, which neither function touches, is left out. SHA3-256 is
a parameter.
-/

namespace Qau

/-- `TxType`: a byte of which eleven values are valid. -/
abbrev TxType := UInt8

namespace TxType

def transfer : TxType := 0
def contract : TxType := 1
def create : TxType := 2
def stake : TxType := 3
def unstake : TxType := 4
def dynamicFee : TxType := 5
def blob : TxType := 6
def multiSig : TxType := 7
def privacy : TxType := 8
def commit : TxType := 9
def validatorKey : TxType := 10

def isValid (t : TxType) : Bool := t ≤ validatorKey

end TxType

/-- The fields of a multi-signature transaction. -/
structure MultiSigFields where
  multiSigSignatures : List Bytes := []
  multiSigSignerBitmap : Bytes := []
  multiSigRequiredSigs : Int := 0
  multiSigTotalSigners : Int := 0
  deriving DecidableEq

structure PrivacyFields where
  privacyEphemeralPubKey : Bytes := []
  privacyStealthAddrHash : Hash := zeroArr 32
  privacyCommitments : List Bytes := []
  privacyEncryptedAmounts : List Bytes := []
  privacyRangeProofs : List Bytes := []
  privacyBalanceProof : Bytes := []
  privacyNullifier : Hash := zeroArr 32
  deriving DecidableEq

/-- `Transaction`; the defaults are Go's zero values. -/
structure Transaction extends MultiSigFields, PrivacyFields where
  version : UInt32 := 0
  type : TxType := 0
  nonce : UInt64 := 0
  fromAddr : Address := zeroArr 20
  toAddr : Option Address := none
  value : Option Int := none
  gasLimit : UInt64 := 0
  gasPrice : Option Int := none
  data : Bytes := []
  publicKey : Bytes := []
  signature : Bytes := []
  chainID : UInt64 := 0
  maxFeePerGas : Option Int := none
  maxPriorityFeePerGas : Option Int := none
  maxFeePerBlobGas : Option Int := none
  blobVersionedHashes : List Hash := []
  blobGasUsed : UInt64 := 0
  ethHash : Hash := zeroArr 32
  deriving DecidableEq

/-! ## Encoding -/

/-- The conversion `uint32(v)` of an `int`. -/
def toUint32 (v : Int) : UInt32 := UInt32.ofNat (v % 2 ^ 32).toNat

/-- The recipient, written unless it is nil. -/
def encodeToField : Option Address → List WireValue
  | none => []
  | some a => encodeBytesField a.toList

/-- Fields 1 to 18, written for every type. -/
def baseGroups (tx : Transaction) : List WireGroup :=
  [ ⟨1, encodeUint32Field tx.version⟩,
    ⟨2, encodeUint32Field tx.type.toUInt32⟩,
    ⟨3, encodeUint64Field tx.nonce⟩,
    ⟨4, encodeBytesField tx.fromAddr.toList⟩,
    ⟨5, encodeToField tx.toAddr⟩,
    ⟨6, encodeIntField tx.value⟩,
    ⟨7, encodeUint64Field tx.gasLimit⟩,
    ⟨8, encodeIntField tx.gasPrice⟩,
    ⟨9, encodeBytesField tx.data⟩,
    ⟨10, encodeBytesFieldAlways tx.signature⟩,
    ⟨11, encodeBytesFieldAlways tx.publicKey⟩,
    ⟨12, encodeHashField tx.ethHash⟩,
    ⟨13, encodeUint64FieldAlways tx.chainID⟩,
    ⟨14, encodeIntField tx.maxFeePerGas⟩,
    ⟨15, encodeIntField tx.maxPriorityFeePerGas⟩,
    ⟨16, encodeIntField tx.maxFeePerBlobGas⟩,
    ⟨17, tx.blobVersionedHashes.flatMap fun h => encodeBytesField h.toList⟩,
    ⟨18, encodeUint64Field tx.blobGasUsed⟩ ]

/-- Fields 20 to 23, written for `TxTypeMultiSig`. -/
def multiSigGroups (m : MultiSigFields) : List WireGroup :=
  [ ⟨20, m.multiSigSignatures.flatMap encodeBytesField⟩,
    ⟨21, encodeBytesField m.multiSigSignerBitmap⟩,
    ⟨22, encodeUint32Field (toUint32 m.multiSigRequiredSigs)⟩,
    ⟨23, encodeUint32Field (toUint32 m.multiSigTotalSigners)⟩ ]

/-- Fields 30 to 36, written for `TxTypePrivacy`. -/
def privacyGroups (p : PrivacyFields) : List WireGroup :=
  [ ⟨30, encodeBytesField p.privacyEphemeralPubKey⟩,
    ⟨31, encodeHashField p.privacyStealthAddrHash⟩,
    ⟨32, p.privacyCommitments.flatMap encodeBytesField⟩,
    ⟨33, p.privacyEncryptedAmounts.flatMap encodeBytesField⟩,
    ⟨34, p.privacyRangeProofs.flatMap encodeBytesField⟩,
    ⟨35, encodeBytesField p.privacyBalanceProof⟩,
    ⟨36, encodeHashField p.privacyNullifier⟩ ]

/-- The groups `MarshalTransaction` writes, in its order. -/
def txGroups (tx : Transaction) : List WireGroup :=
  baseGroups tx
    ++ (if tx.type = TxType.multiSig then multiSigGroups tx.toMultiSigFields else [])
    ++ (if tx.type = TxType.privacy then privacyGroups tx.toPrivacyFields else [])

def marshalTransaction (tx : Transaction) : Bytes := encodeFields (groupFields (txGroups tx))

/-! ## Decoding -/

/-- The fields that may come more than once. -/
def txRepeatable (fieldNum : Nat) : Bool := fieldNum ∈ [17, 20, 32, 33, 34]

def maxBlobsPerTransaction : Nat := 6

def maxUint32 : Nat := 2 ^ 32 - 1

def maxInt32 : Nat := 2 ^ 31 - 1

/-- The switch of `UnmarshalTransaction`. -/
def txSwitch (tx : Transaction) : Nat → FieldCase Transaction EncodingError
  | 1 => boundedCase "version" maxUint32 fun v => { tx with version := v.toUInt32 }
  | 2 => .varint "type" fun v =>
    if 255 < v.toNat then .error (.exceeds "type" 255 v.toNat)
    else if TxType.isValid v.toUInt8 then .ok { tx with type := v.toUInt8 }
    else .error (.invalidTxType v.toUInt8)
  | 3 => uint64Case "nonce" fun v => { tx with nonce := v }
  | 4 => addressCase "from" fun a => { tx with fromAddr := a }
  | 5 => addressCase "to" fun a => { tx with toAddr := some a }
  | 6 => intCase "value" fun v => { tx with value := some v }
  | 7 => uint64Case "gas_limit" fun v => { tx with gasLimit := v }
  | 8 => intCase "gas_price" fun v => { tx with gasPrice := some v }
  | 9 => limitedCase "data" (1024 * 1024) fun d => { tx with data := d }
  | 10 => limitedCase "signature" 3293 fun d => { tx with signature := d }
  | 11 => limitedCase "public_key" 1952 fun d => { tx with publicKey := d }
  | 12 => lenientHashCase "qau_hash" tx fun h => { tx with ethHash := h }
  | 13 => .varint "chain_id" fun v =>
    if v = 0 then .error .zeroChainID else .ok { tx with chainID := v }
  | 14 => intCase "max_fee_per_gas" fun v => { tx with maxFeePerGas := some v }
  | 15 => intCase "max_priority_fee_per_gas" fun v => { tx with maxPriorityFeePerGas := some v }
  | 16 => intCase "max_fee_per_blob_gas" fun v => { tx with maxFeePerBlobGas := some v }
  | 17 => .bytes "blob_versioned_hashes"
      -- The count is checked before the payload is read.
      (if maxBlobsPerTransaction ≤ tx.blobVersionedHashes.length then
        .error (.tooMany "blob_versioned_hashes" maxBlobsPerTransaction
          (tx.blobVersionedHashes.length + 1))
      else .ok ())
      fun d =>
        if d.length ≠ 32 then .error (.badLength "blob_versioned_hashes" d.length)
        else .ok { tx with blobVersionedHashes := tx.blobVersionedHashes ++ [copyInto 32 d] }
  | 18 => uint64Case "blob_gas_used" fun v => { tx with blobGasUsed := v }
  | 20 => elementCase "multisig_signature" 256 3293 tx.multiSigSignatures
      fun l => { tx with multiSigSignatures := l }
  | 21 => limitedCase "multisig_signer_bitmap" 32 fun d => { tx with multiSigSignerBitmap := d }
  | 22 => boundedCase "multisig_required_sigs" maxInt32
      fun v => { tx with multiSigRequiredSigs := v.toNat }
  | 23 => boundedCase "multisig_total_signers" maxInt32
      fun v => { tx with multiSigTotalSigners := v.toNat }
  | 30 => limitedCase "privacy_ephemeral_pubkey" 1184
      fun d => { tx with privacyEphemeralPubKey := d }
  | 31 => lenientHashCase "privacy_stealth_addr_hash" tx
      fun h => { tx with privacyStealthAddrHash := h }
  | 32 => elementCase "privacy_commitment" 64 48 tx.privacyCommitments
      fun l => { tx with privacyCommitments := l }
  | 33 => elementCase "privacy_encrypted_amount" 64 68 tx.privacyEncryptedAmounts
      fun l => { tx with privacyEncryptedAmounts := l }
  | 34 => elementCase "privacy_range_proof" 64 8192 tx.privacyRangeProofs
      fun l => { tx with privacyRangeProofs := l }
  | 35 => limitedCase "privacy_balance_proof" 8192 fun d => { tx with privacyBalanceProof := d }
  | 36 => lenientHashCase "privacy_nullifier" tx fun h => { tx with privacyNullifier := h }
  | _ => .unknown

/-- The transaction before any field is read. -/
def freshTransaction : Transaction := { value := some 0, gasPrice := some 0 }

def maxTransactionSize : Nat := 128 * 1024

def unmarshalTransaction (data : Bytes) : Except (MessageError EncodingError) Transaction :=
  if data.length = 0 then .error (.field .emptyData)
  else if maxTransactionSize < data.length then
    .error (.field (.tooLarge data.length maxTransactionSize))
  else
    match decodeMessage txRepeatable txSwitch freshTransaction data with
    | .error e => .error e
    | .ok tx =>
      if tx.multiSigTotalSigners < tx.multiSigRequiredSigs then
        .error (.field (.requiredExceedsTotal tx.multiSigRequiredSigs tx.multiSigTotalSigners))
      else .ok tx

/-! ## Hashes -/

/-- `signingDomainSeparator`: "Quantaureum Transaction v1" and a zero byte. -/
def signingDomainSeparator : Bytes :=
  ("Quantaureum Transaction v1".toList.map fun c => UInt8.ofNat c.toNat) ++ [0]

def normalizeBigInt (v : Option Int) : Option Int := some (v.getD 0)

/-- The copy that `SigningHash` serialises: no signatures, no public key,
no legacy hash, and zero for a nil integer. -/
def signingCopy (tx : Transaction) : Transaction :=
  { tx with
    value := normalizeBigInt tx.value
    gasPrice := normalizeBigInt tx.gasPrice
    maxFeePerGas := normalizeBigInt tx.maxFeePerGas
    maxPriorityFeePerGas := normalizeBigInt tx.maxPriorityFeePerGas
    maxFeePerBlobGas := normalizeBigInt tx.maxFeePerBlobGas
    multiSigSignatures := []
    signature := []
    publicKey := []
    ethHash := zeroArr 32 }

def signingMessage (tx : Transaction) : Bytes :=
  signingDomainSeparator ++ marshalTransaction (signingCopy tx)

def signingHash (sha3 : Bytes → Hash) (tx : Transaction) : Hash := sha3 (signingMessage tx)

def txHash (sha3 : Bytes → Hash) (tx : Transaction) : Hash := sha3 (marshalTransaction tx)

end Qau
