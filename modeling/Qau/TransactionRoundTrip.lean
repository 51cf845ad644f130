import Qau.TransactionCodec

/-!
# What comes back from the wire

`UnmarshalTransaction` applied to the bytes of `MarshalTransaction` returns
`readBack tx` for every transaction within the decoder's limits
(`TxLimits`): the fields of other types are gone, a nil integer may have
become zero or the other way round, and the empty elements of the lists
that the type carries are gone too, because `EncodeBytesField` writes
nothing for them. The bytes, and with them both hashes, do not change.
-/

namespace Qau

variable {s tx : Transaction} {m : MultiSigFields} {p : PrivacyFields}

/-! ## What a type carries -/

/-- The multi-signature fields, if the type has them. -/
def carriedMultiSig (tx : Transaction) : MultiSigFields :=
  if tx.type = TxType.multiSig then tx.toMultiSigFields else {}

/-- The privacy fields, if the type has them. -/
def carriedPrivacy (tx : Transaction) : PrivacyFields :=
  if tx.type = TxType.privacy then tx.toPrivacyFields else {}

/-- The transaction in the fields its type carries, with zero for a nil
integer. -/
def carried (tx : Transaction) : Transaction :=
  { tx with
    toMultiSigFields := carriedMultiSig tx
    toPrivacyFields := carriedPrivacy tx
    value := normalizeBigInt tx.value
    gasPrice := normalizeBigInt tx.gasPrice
    maxFeePerGas := normalizeBigInt tx.maxFeePerGas
    maxPriorityFeePerGas := normalizeBigInt tx.maxPriorityFeePerGas
    maxFeePerBlobGas := normalizeBigInt tx.maxFeePerBlobGas }

/-- No list that the type carries has an empty element. -/
def NoEmptyElement (tx : Transaction) : Prop :=
  (tx.type = TxType.multiSig → [] ∉ tx.multiSigSignatures) ∧
  (tx.type = TxType.privacy → [] ∉ tx.privacyCommitments ∧
    [] ∉ tx.privacyEncryptedAmounts ∧ [] ∉ tx.privacyRangeProofs)

/-- The limits of the multi-signature fields. -/
structure MultiSigLimits (m : MultiSigFields) : Prop where
  count : m.multiSigSignatures.length ≤ 256
  signatures : ∀ x ∈ m.multiSigSignatures, x.length ≤ 3293
  bitmap : m.multiSigSignerBitmap.length ≤ 32
  required_nonneg : 0 ≤ m.multiSigRequiredSigs
  required_le : m.multiSigRequiredSigs ≤ m.multiSigTotalSigners
  total_le : m.multiSigTotalSigners ≤ maxInt32

structure PrivacyLimits (p : PrivacyFields) : Prop where
  ephemeral : p.privacyEphemeralPubKey.length ≤ 1184
  commitmentCount : p.privacyCommitments.length ≤ 64
  commitments : ∀ x ∈ p.privacyCommitments, x.length ≤ 48
  amountCount : p.privacyEncryptedAmounts.length ≤ 64
  amounts : ∀ x ∈ p.privacyEncryptedAmounts, x.length ≤ 68
  proofCount : p.privacyRangeProofs.length ≤ 64
  proofs : ∀ x ∈ p.privacyRangeProofs, x.length ≤ 8192
  balanceProof : p.privacyBalanceProof.length ≤ 8192

/-- The limits of the fields of every type. -/
structure BaseLimits (tx : Transaction) : Prop where
  type : tx.type.isValid = true
  value : IntFits tx.value
  gasPrice : IntFits tx.gasPrice
  signature : tx.signature.length ≤ 3293
  publicKey : tx.publicKey.length ≤ 1952
  data : tx.data.length ≤ 1024 * 1024
  maxFeePerGas : IntFits tx.maxFeePerGas
  maxPriorityFeePerGas : IntFits tx.maxPriorityFeePerGas
  maxFeePerBlobGas : IntFits tx.maxFeePerBlobGas
  blobs : tx.blobVersionedHashes.length ≤ maxBlobsPerTransaction

/-- The decoder's limits. -/
structure TxLimits (tx : Transaction) : Prop where
  base : BaseLimits tx
  chainID : tx.chainID ≠ 0
  multiSig : tx.type = TxType.multiSig → MultiSigLimits tx.toMultiSigFields
  privacy : tx.type = TxType.privacy → PrivacyLimits tx.toPrivacyFields
  size : (marshalTransaction tx).length ≤ maxTransactionSize

/-! ## The transaction that is read back -/

def writtenElements (l : List Bytes) : List Bytes := l.filter fun x => x ≠ []

def writtenMultiSig (m : MultiSigFields) : MultiSigFields :=
  { m with multiSigSignatures := writtenElements m.multiSigSignatures }

def writtenPrivacy (p : PrivacyFields) : PrivacyFields :=
  { p with
    privacyCommitments := writtenElements p.privacyCommitments
    privacyEncryptedAmounts := writtenElements p.privacyEncryptedAmounts
    privacyRangeProofs := writtenElements p.privacyRangeProofs }

/-- The decoder's reading of fields 1 to 18. -/
def readBase (tx : Transaction) : Transaction :=
  { tx with
    toMultiSigFields := {}
    toPrivacyFields := {}
    value := normalizeBigInt tx.value
    gasPrice := normalizeBigInt tx.gasPrice
    maxFeePerGas := writtenInt tx.maxFeePerGas
    maxPriorityFeePerGas := writtenInt tx.maxPriorityFeePerGas
    maxFeePerBlobGas := writtenInt tx.maxFeePerBlobGas }

/-- The transaction that decoding returns. -/
def readBack (tx : Transaction) : Transaction :=
  { readBase tx with
    toMultiSigFields := writtenMultiSig (carriedMultiSig tx)
    toPrivacyFields := writtenPrivacy (carriedPrivacy tx) }

theorem writtenElements_eq_self {l : List Bytes} : writtenElements l = l ↔ [] ∉ l := by
  rw [writtenElements, List.filter_eq_self]
  simp only [decide_eq_true_eq]
  exact ⟨fun h hmem => h [] hmem rfl, fun h x hx hnil => h (hnil ▸ hx)⟩

@[simp] theorem flatMap_writtenElements (l : List Bytes) :
    (writtenElements l).flatMap encodeBytesField = l.flatMap encodeBytesField := by
  induction l with
  | nil => rfl
  | cons x l ih =>
    rw [writtenElements] at ih ⊢
    cases x with
    | nil =>
      rw [List.filter_cons_of_neg (by simp), ih]
      rfl
    | cons y x => rw [List.filter_cons_of_pos (by simp), List.flatMap_cons, List.flatMap_cons, ih]

/-! ## Running the cases -/

theorem runGroup_type {t : TxType} (ht : t.isValid = true) (h0 : s.type = 0) :
    runGroup txSwitch s ⟨2, encodeUint32Field t.toUInt32⟩ = .ok { s with type := t } := by
  by_cases hz : t = 0
  · have hs : { s with type := t } = s := by rw [hz, ← h0]
    rw [hs, hz]
    rfl
  · have hne : t.toUInt32 ≠ 0 := by
      intro h
      apply hz
      have := congrArg UInt32.toNat h
      exact UInt8.toNat_inj.mp this
    have hlt : ¬ 255 < t.toUInt32.toUInt64.toNat := by
      have := t.toNat_lt
      rw [UInt32.toNat_toUInt64, UInt8.toNat_toUInt32]
      omega
    have hback : t.toUInt32.toUInt64.toUInt8 = t := by simp
    rw [encodeUint32Field, if_pos hne, runGroup_singleton]
    simp only [txSwitch, applyCase, hback, if_neg hlt, ht, if_true, refused]

theorem runGroup_to (a : Option Address) (h0 : s.toAddr = none) :
    runGroup txSwitch s ⟨5, encodeToField a⟩ = .ok { s with toAddr := a } := by
  cases a with
  | none =>
    have hs : { s with toAddr := none } = s := by rw [← h0]
    rw [hs]
    rfl
  | some a =>
    have hcase : txSwitch s 5 = addressCase "to" fun a => { s with toAddr := some a } := rfl
    exact runGroup_address a hcase

theorem runGroup_chainID {v : UInt64} (hv : v ≠ 0) :
    runGroup txSwitch s ⟨13, encodeUint64FieldAlways v⟩ = .ok { s with chainID := v } := by
  rw [encodeUint64FieldAlways, runGroup_singleton]
  simp only [txSwitch, applyCase, if_neg hv, refused]

theorem runGroup_blobHashes (hs : List Hash)
    (hlen : s.blobVersionedHashes.length + hs.length ≤ maxBlobsPerTransaction) :
    runGroup txSwitch s ⟨17, hs.flatMap fun h => encodeBytesField h.toList⟩ =
      .ok { s with blobVersionedHashes := s.blobVersionedHashes ++ hs } := by
  induction hs generalizing s with
  | nil =>
    rw [List.append_nil]
    rfl
  | cons h hs ih =>
    rw [List.length_cons] at hlen
    have hroom : ¬ maxBlobsPerTransaction ≤ s.blobVersionedHashes.length := by omega
    have hstep : applyCase (txSwitch s 17) s (.bytes h.toList) =
        .ok { s with blobVersionedHashes := s.blobVersionedHashes ++ [h] } := by
      simp [txSwitch, applyCase, refused, hroom]
    have hrest : (s.blobVersionedHashes ++ [h]).length + hs.length ≤ maxBlobsPerTransaction := by
      rw [List.length_append, List.length_singleton]
      omega
    rw [List.append_cons, List.flatMap_cons, encodeBytesField_toList (by decide), runGroup,
      List.singleton_append, List.foldlM_cons, hstep]
    exact ih (s := { s with blobVersionedHashes := s.blobVersionedHashes ++ [h] }) hrest

theorem run_baseGroups (h : BaseLimits tx) (hchain : tx.chainID ≠ 0) :
    (baseGroups tx).foldlM (runGroup txSwitch) freshTransaction = .ok (readBase tx) := by
  have hversion : tx.version.toNat ≤ maxUint32 := by
    have := tx.version.toNat_lt
    rw [maxUint32]
    omega
  refine runGroups_cons (runGroup_uint32_bounded tx.version rfl hversion rfl) ?_
  refine runGroups_cons (runGroup_type h.type rfl) ?_
  refine runGroups_cons (runGroup_uint64 tx.nonce rfl rfl) ?_
  refine runGroups_cons (runGroup_address tx.fromAddr rfl) ?_
  refine runGroups_cons (runGroup_to tx.toAddr rfl) ?_
  refine runGroups_cons (runGroup_int_zero rfl h.value rfl) ?_
  refine runGroups_cons (runGroup_uint64 tx.gasLimit rfl rfl) ?_
  refine runGroups_cons (runGroup_int_zero rfl h.gasPrice rfl) ?_
  refine runGroups_cons (runGroup_limited rfl h.data rfl) ?_
  refine runGroups_cons (runGroup_limitedAlways rfl h.signature) ?_
  refine runGroups_cons (runGroup_limitedAlways rfl h.publicKey) ?_
  refine runGroups_cons (runGroup_lenientHash tx.ethHash rfl rfl) ?_
  refine runGroups_cons (runGroup_chainID hchain) ?_
  refine runGroups_cons (runGroup_int_nil (f := fun s v => { s with maxFeePerGas := v }) rfl
    h.maxFeePerGas rfl) ?_
  refine runGroups_cons (runGroup_int_nil
    (f := fun s v => { s with maxPriorityFeePerGas := v }) rfl h.maxPriorityFeePerGas rfl) ?_
  refine runGroups_cons (runGroup_int_nil (f := fun s v => { s with maxFeePerBlobGas := v })
    rfl h.maxFeePerBlobGas rfl) ?_
  refine runGroups_cons (runGroup_blobHashes tx.blobVersionedHashes
    ((Nat.zero_add _).trans_le h.blobs)) ?_
  refine runGroups_cons (runGroup_uint64 tx.blobGasUsed rfl rfl) ?_
  simp [freshTransaction, readBase, normalizeBigInt, pure, Except.pure]

theorem toUint32_toNat {v : Int} (h0 : 0 ≤ v) (hv : v ≤ maxInt32) :
    ((toUint32 v).toNat : Int) = v := by
  rw [maxInt32] at hv
  rw [toUint32, UInt32.toNat_ofNat']
  omega

theorem run_multiSigGroups (hs : s.toMultiSigFields = {}) (h : MultiSigLimits m) :
    (multiSigGroups m).foldlM (runGroup txSwitch) s =
      .ok { s with toMultiSigFields := writtenMultiSig m } := by
  have hrequired := h.required_le.trans h.total_le
  have hreq := toUint32_toNat h.required_nonneg hrequired
  have htot := toUint32_toNat (h.required_nonneg.trans h.required_le) h.total_le
  have hreqLe : (toUint32 m.multiSigRequiredSigs).toNat ≤ maxInt32 := by omega
  have htotLe : (toUint32 m.multiSigTotalSigners).toNat ≤ maxInt32 := by
    have := h.total_le
    omega
  obtain ⟨ms, ps⟩ := s
  obtain rfl : ms = {} := hs
  refine runGroups_cons (runGroup_elements (f := fun s l => { s with multiSigSignatures := l })
    (fun _ => rfl) rfl h.count h.signatures) ?_
  refine runGroups_cons (runGroup_limited rfl h.bitmap rfl) ?_
  refine runGroups_cons (runGroup_uint32_bounded _ rfl hreqLe rfl) ?_
  refine runGroups_cons (runGroup_uint32_bounded _ rfl htotLe rfl) ?_
  simp [writtenMultiSig, writtenElements, pure, Except.pure, hreq, htot]

theorem run_privacyGroups (hs : s.toPrivacyFields = {}) (h : PrivacyLimits p) :
    (privacyGroups p).foldlM (runGroup txSwitch) s =
      .ok { s with toPrivacyFields := writtenPrivacy p } := by
  obtain ⟨ms, ps⟩ := s
  obtain rfl : ps = {} := hs
  refine runGroups_cons (runGroup_limited rfl h.ephemeral rfl) ?_
  refine runGroups_cons (runGroup_lenientHash p.privacyStealthAddrHash rfl rfl) ?_
  refine runGroups_cons (runGroup_elements (f := fun s l => { s with privacyCommitments := l })
    (fun _ => rfl) rfl h.commitmentCount h.commitments) ?_
  refine runGroups_cons (runGroup_elements
    (f := fun s l => { s with privacyEncryptedAmounts := l }) (fun _ => rfl) rfl h.amountCount
    h.amounts) ?_
  refine runGroups_cons (runGroup_elements (f := fun s l => { s with privacyRangeProofs := l })
    (fun _ => rfl) rfl h.proofCount h.proofs) ?_
  refine runGroups_cons (runGroup_limited rfl h.balanceProof rfl) ?_
  refine runGroups_cons (runGroup_lenientHash p.privacyNullifier rfl rfl) ?_
  rfl

/-! ## The groups of a message

A message of another type leaves its groups out; writing them with nothing
in them gives the same fields. -/

/-- All groups, the uncarried ones empty. -/
def allGroups (tx : Transaction) : List WireGroup :=
  baseGroups tx ++ multiSigGroups (carriedMultiSig tx) ++ privacyGroups (carriedPrivacy tx)

theorem groupFields_append (gs hs : List WireGroup) :
    groupFields (gs ++ hs) = groupFields gs ++ groupFields hs := by
  simp [groupFields]

theorem groupFields_txGroups (tx : Transaction) :
    groupFields (txGroups tx) = groupFields (allGroups tx) := by
  have hm : groupFields (multiSigGroups {}) = [] := rfl
  have hp : groupFields (privacyGroups {}) = [] := by decide
  simp only [txGroups, allGroups, groupFields_append, carriedMultiSig, carriedPrivacy]
  split_ifs <;> simp [hm, hp]

def txFieldNums : List Nat :=
  [1, 2, 3, 4, 5, 6, 7, 8, 9, 10, 11, 12, 13, 14, 15, 16, 17, 18, 20, 21, 22, 23, 30, 31, 32, 33,
    34, 35, 36]

theorem allGroups_nums (tx : Transaction) : (allGroups tx).map WireGroup.num = txFieldNums := rfl

theorem allGroups_single (tx : Transaction) :
    ∀ g ∈ allGroups tx, txRepeatable g.num = true ∨ g.values.length ≤ 1 := by
  have hto : ∀ a : Option Address, (encodeToField a).length ≤ 1 := by
    intro a
    cases a with
    | none => exact Nat.zero_le 1
    | some a => exact encodeBytesField_length_le _
  simp [allGroups, baseGroups, multiSigGroups, privacyGroups, txRepeatable, hto,
    encodeUint32Field_length_le, encodeUint64Field_length_le, encodeBytesField_length_le,
    encodeIntField_length_le, encodeHashField_length_le, encodeBytesFieldAlways,
    encodeUint64FieldAlways]

theorem decodeMessage_marshalTransaction (h : TxLimits tx) :
    decodeMessage txRepeatable txSwitch freshTransaction (marshalTransaction tx) =
      .ok (readBack tx) := by
  have hsize : (encodeFields (groupFields (allGroups tx))).length ≤ maxWireBytesSize := by
    rw [← groupFields_txGroups]
    exact h.size.trans (by decide)
  have hm : MultiSigLimits (carriedMultiSig tx) := by
    unfold carriedMultiSig
    split
    · exact h.multiSig ‹_›
    · exact ⟨by decide, by simp, by decide, le_refl 0, le_refl 0, by decide⟩
  have hp : PrivacyLimits (carriedPrivacy tx) := by
    unfold carriedPrivacy
    split
    · exact h.privacy ‹_›
    · constructor <;> simp
  rw [marshalTransaction, groupFields_txGroups]
  exact decodeMessage_groups txRepeatable txSwitch (by rw [allGroups_nums]; decide)
    (by rw [allGroups_nums]; decide) (allGroups_single tx) hsize
    (runGroups_append (runGroups_append (run_baseGroups h.base h.chainID)
      (run_multiSigGroups rfl hm)) (run_privacyGroups rfl hp))

theorem marshalTransaction_ne_nil (tx : Transaction) : marshalTransaction tx ≠ [] := by
  rw [marshalTransaction, Ne, encodeFields_eq_nil]
  simp [txGroups, baseGroups, WireGroup.fields, encodeBytesFieldAlways]

theorem readBack_required_le (h : TxLimits tx) :
    (readBack tx).multiSigRequiredSigs ≤ (readBack tx).multiSigTotalSigners := by
  show (carriedMultiSig tx).multiSigRequiredSigs ≤ (carriedMultiSig tx).multiSigTotalSigners
  unfold carriedMultiSig
  split
  · exact (h.multiSig ‹_›).required_le
  · exact le_refl 0

theorem unmarshal_marshal (h : TxLimits tx) :
    unmarshalTransaction (marshalTransaction tx) = .ok (readBack tx) := by
  have hne : (marshalTransaction tx).length ≠ 0 := by
    simpa using marshalTransaction_ne_nil tx
  rw [unmarshalTransaction, if_neg hne, if_neg (Nat.not_lt.mpr h.size),
    decodeMessage_marshalTransaction h]
  simp only [if_neg (Int.not_lt.mpr (readBack_required_le h))]

/-! ## The bytes do not change -/

@[simp] theorem encodeIntField_normalize (v : Option Int) :
    encodeIntField (normalizeBigInt v) = encodeIntField v := by
  cases v with
  | none => rfl
  | some x => rfl

@[simp] theorem encodeIntField_written (v : Option Int) :
    encodeIntField (writtenInt v) = encodeIntField v := by
  cases v with
  | none => rfl
  | some x =>
    by_cases hx : x = 0
    · subst hx
      rfl
    · rw [writtenInt_some hx]

@[simp] theorem multiSigGroups_written (m : MultiSigFields) :
    multiSigGroups (writtenMultiSig m) = multiSigGroups m := by
  simp [multiSigGroups, writtenMultiSig]

@[simp] theorem privacyGroups_written (p : PrivacyFields) :
    privacyGroups (writtenPrivacy p) = privacyGroups p := by
  simp [privacyGroups, writtenPrivacy]

theorem carriedMultiSig_readBack (tx : Transaction) :
    carriedMultiSig (readBack tx) = writtenMultiSig (carriedMultiSig tx) := by
  by_cases h : tx.type = TxType.multiSig
  · exact if_pos h
  · rw [carriedMultiSig, carriedMultiSig, if_neg h]
    exact if_neg h

theorem carriedPrivacy_readBack (tx : Transaction) :
    carriedPrivacy (readBack tx) = writtenPrivacy (carriedPrivacy tx) := by
  by_cases h : tx.type = TxType.privacy
  · exact if_pos h
  · rw [carriedPrivacy, carriedPrivacy, if_neg h]
    exact if_neg h

theorem marshalTransaction_congr {tx' : Transaction} (hbase : baseGroups tx' = baseGroups tx)
    (hm : multiSigGroups (carriedMultiSig tx') = multiSigGroups (carriedMultiSig tx))
    (hp : privacyGroups (carriedPrivacy tx') = privacyGroups (carriedPrivacy tx)) :
    marshalTransaction tx' = marshalTransaction tx := by
  rw [marshalTransaction, marshalTransaction, groupFields_txGroups, groupFields_txGroups, allGroups,
    allGroups, hbase, hm, hp]

theorem marshalTransaction_readBack (tx : Transaction) :
    marshalTransaction (readBack tx) = marshalTransaction tx := by
  refine marshalTransaction_congr (by simp [baseGroups, readBack, readBase]) ?_ ?_
  · rw [carriedMultiSig_readBack, multiSigGroups_written]
  · rw [carriedPrivacy_readBack, privacyGroups_written]

theorem signingMessage_readBack (tx : Transaction) :
    signingMessage (readBack tx) = signingMessage tx := by
  refine congrArg (signingDomainSeparator ++ ·) (marshalTransaction_congr ?_ ?_ ?_)
  · simp [baseGroups, signingCopy, readBack, readBase]
  · by_cases h : tx.type = TxType.multiSig <;>
      simp [carriedMultiSig, signingCopy, readBack, readBase, writtenMultiSig, h]
  · show privacyGroups (carriedPrivacy (readBack tx)) = _
    rw [carriedPrivacy_readBack, privacyGroups_written]
    rfl

/-! ## What comes back is what was sent -/

theorem writtenMultiSig_eq_self : writtenMultiSig m = m ↔ [] ∉ m.multiSigSignatures := by
  rw [← writtenElements_eq_self]
  exact ⟨fun h => congrArg MultiSigFields.multiSigSignatures h,
    fun h => by rw [writtenMultiSig, h]⟩

theorem writtenPrivacy_eq_self :
    writtenPrivacy p = p ↔ [] ∉ p.privacyCommitments ∧ [] ∉ p.privacyEncryptedAmounts ∧
      [] ∉ p.privacyRangeProofs := by
  simp only [← writtenElements_eq_self]
  constructor
  · intro h
    exact ⟨congrArg PrivacyFields.privacyCommitments h,
      congrArg PrivacyFields.privacyEncryptedAmounts h,
      congrArg PrivacyFields.privacyRangeProofs h⟩
  · rintro ⟨h1, h2, h3⟩
    rw [writtenPrivacy, h1, h2, h3]

theorem noEmptyElement_iff :
    NoEmptyElement tx ↔ writtenMultiSig (carriedMultiSig tx) = carriedMultiSig tx ∧
      writtenPrivacy (carriedPrivacy tx) = carriedPrivacy tx := by
  rw [writtenMultiSig_eq_self, writtenPrivacy_eq_self, carriedMultiSig,
    carriedPrivacy]
  refine and_congr ?_ ?_
  · by_cases hm : tx.type = TxType.multiSig <;> simp [hm]
  · by_cases hp : tx.type = TxType.privacy <;> simp [hp]

theorem carried_readBack_iff (tx : Transaction) :
    carried (readBack tx) = carried tx ↔ NoEmptyElement tx := by
  have hback : carried (readBack tx) =
      { carried tx with
        toMultiSigFields := writtenMultiSig (carriedMultiSig tx)
        toPrivacyFields := writtenPrivacy (carriedPrivacy tx) } := by
    rw [carried, carriedMultiSig_readBack, carriedPrivacy_readBack]
    simp [readBack, readBase, carried, normalizeBigInt]
  rw [hback, noEmptyElement_iff]
  constructor
  · intro h
    exact ⟨congrArg Transaction.toMultiSigFields h, congrArg Transaction.toPrivacyFields h⟩
  · rintro ⟨hm, hp⟩
    rw [hm, hp]
    rfl

/-- Decoding what was encoded succeeds for every transaction within the
limits and keeps both hashes; it keeps the fields the type carries exactly
when none of their lists has an empty element. -/
theorem unmarshalTransaction_marshalTransaction {tx : Transaction} (h : TxLimits tx) :
    ∃ tx', unmarshalTransaction (marshalTransaction tx) = .ok tx' ∧
      (∀ sha3 : Bytes → Hash, txHash sha3 tx' = txHash sha3 tx ∧
        signingHash sha3 tx' = signingHash sha3 tx) ∧
      (carried tx' = carried tx ↔ NoEmptyElement tx) := by
  refine ⟨readBack tx, unmarshal_marshal h, fun sha3 => ⟨?_, ?_⟩, carried_readBack_iff tx⟩
  · rw [txHash, txHash, marshalTransaction_readBack]
  · rw [signingHash, signingHash, signingMessage_readBack]

/-- A 1-of-2 multi-signature transaction with the given signatures. -/
def oneOfTwo (signatures : List Bytes) : Transaction :=
  { type := TxType.multiSig
    chainID := 1668
    value := some 5
    multiSigSignatures := signatures
    multiSigSignerBitmap := [2]
    multiSigRequiredSigs := 1
    multiSigTotalSigners := 2 }

theorem oneOfTwo_limits {signatures : List Bytes} (hcount : signatures.length ≤ 256)
    (hlen : ∀ x ∈ signatures, x.length ≤ 3293)
    (hsize : (marshalTransaction (oneOfTwo signatures)).length ≤ maxTransactionSize) :
    TxLimits (oneOfTwo signatures) where
  base :=
    { type := rfl
      value := fun x hx => by obtain rfl := Option.some.inj hx; decide
      gasPrice := fun x hx => nomatch hx
      signature := Nat.zero_le _
      publicKey := Nat.zero_le _
      data := Nat.zero_le _
      maxFeePerGas := fun x hx => nomatch hx
      maxPriorityFeePerGas := fun x hx => nomatch hx
      maxFeePerBlobGas := fun x hx => nomatch hx
      blobs := Nat.zero_le _ }
  chainID := by simp [oneOfTwo]
  multiSig := fun _ =>
    { count := hcount
      signatures := hlen
      bitmap := by simp [oneOfTwo]
      required_nonneg := by simp [oneOfTwo]
      required_le := by simp [oneOfTwo]
      total_le := by simp [oneOfTwo, maxInt32] }
  privacy := fun h => absurd h (by simp [oneOfTwo, TxType.multiSig, TxType.privacy])
  size := hsize

/-- Two signatures that are both there come back. -/
theorem unmarshalTransaction_two_signatures :
    ∃ tx', unmarshalTransaction (marshalTransaction (oneOfTwo [[0x51], [0x52]])) = .ok tx' ∧
      (∀ sha3 : Bytes → Hash, txHash sha3 tx' = txHash sha3 (oneOfTwo [[0x51], [0x52]]) ∧
        signingHash sha3 tx' = signingHash sha3 (oneOfTwo [[0x51], [0x52]])) ∧
      (carried tx' = carried (oneOfTwo [[0x51], [0x52]]) ↔
        NoEmptyElement (oneOfTwo [[0x51], [0x52]])) :=
  unmarshalTransaction_marshalTransaction
    (oneOfTwo_limits (by decide) (by decide) (by decide +kernel))

/-- The slot of the signer who has not signed is lost, and the second
signer's signature moves to the front. -/
theorem unmarshalTransaction_empty_signature : TxLimits (oneOfTwo [[], [0x52]]) ∧
      ∃ tx', unmarshalTransaction (marshalTransaction (oneOfTwo [[], [0x52]])) = .ok tx' ∧
        tx'.type = TxType.multiSig ∧ tx'.multiSigSignatures = [[0x52]] := by
  have hlimits : TxLimits (oneOfTwo [[], [0x52]]) :=
    oneOfTwo_limits (by decide) (by decide) (by decide +kernel)
  exact ⟨hlimits, readBack (oneOfTwo [[], [0x52]]), unmarshal_marshal hlimits, rfl, rfl⟩

end Qau
