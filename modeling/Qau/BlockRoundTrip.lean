import Qau.BlockCodec
import Qau.TransactionRoundTrip

/-!
# Blocks on the wire

A header with a non-negative timestamp and a nil or positive base fee of
at most 32 bytes is read back as it was (`unmarshalBlockHeader_marshal`).
Both block formats then return the header and, one by one, what the
transaction codec returns for each transaction, as long as the block is
within the limits of the decoder: the number of transactions, the size of
the block and, in the compact format only, the size of the header.

The compact decoder stops after the last transaction. What follows is not
looked at (`unmarshalBlockCompact_append`), so an accepted byte string
stays accepted with any bytes after it, up to the size limit.
-/

namespace Qau

variable {b : Block} {h s : BlockHeader} {d e : Bytes} {txs : List Transaction} {n : Nat}

/-! ## The header -/

/-- The headers that the codec is meant for. -/
structure HeaderFits (h : BlockHeader) : Prop where
  timestamp : 0 ≤ h.timestamp
  baseFee : ∀ v, h.baseFee = some v → 0 < v ∧ v < 2 ^ 256

theorem toUInt64_le_of_nonneg {v : Int64} (hv : 0 ≤ v) : v.toUInt64.toNat ≤ maxInt64 := by
  have h : (0 : Int64).toInt ≤ v.toInt := Int64.le_iff_toInt_le.mp hv
  have hi : v.toInt = v.toBitVec.toInt := rfl
  have hlt := v.toBitVec.isLt
  rw [show (0 : Int64).toInt = 0 from rfl, hi, BitVec.toInt_eq_toNat_cond] at h
  rw [show v.toUInt64.toNat = v.toBitVec.toNat from rfl, maxInt64]
  split at h <;> omega

theorem runGroup_timestamp {v : Int64} (hv : 0 ≤ v) (h0 : s.timestamp = 0) :
    runGroup headerSwitch s ⟨3, encodeInt64Field v⟩ = .ok { s with timestamp := v } := by
  by_cases hz : v = 0
  · have hs : { s with timestamp := v } = s := by rw [hz, ← h0]
    rw [hs, hz]
    rfl
  · have hle := Nat.not_lt.mpr (toUInt64_le_of_nonneg hv)
    rw [encodeInt64Field, if_pos hz, runGroup_singleton]
    simp only [headerSwitch, boundedCase, applyCase, refused, if_neg hle]
    rfl

theorem runGroup_baseFee {v : Option Int}
    (hv : ∀ x, v = some x → 0 < x ∧ x < 2 ^ 256) (h0 : s.baseFee = none) :
    runGroup headerSwitch s ⟨19, encodeBaseFee v⟩ = .ok { s with baseFee := v } := by
  cases v with
  | none =>
    have hs : { s with baseFee := none } = s := by rw [← h0]
    rw [hs]
    rfl
  | some x =>
    obtain ⟨hpos, hlt⟩ := hv x rfl
    have hcase : headerSwitch s 19 = intCase "base_fee" fun x => { s with baseFee := some x } :=
      rfl
    rw [encodeBaseFee, if_pos hpos]
    exact runGroup_int hcase hpos.le hlt hpos.ne'

theorem runGroup_finalityType (v : UInt8) (h0 : s.finalityType = 0) :
    runGroup headerSwitch s ⟨32, encodeUint32Field v.toUInt32⟩ =
      .ok { s with finalityType := v } := by
  have hle : v.toUInt32.toNat ≤ 255 := by
    have := v.toNat_lt
    rw [UInt8.toNat_toUInt32]
    omega
  have hcase : headerSwitch s 32 =
      boundedCase "finality_type" 255 fun x => { s with finalityType := x.toUInt8 } := rfl
  have hzero : { s with finalityType := (0 : UInt64).toUInt8 } = s := by
    rw [show (0 : UInt64).toUInt8 = s.finalityType from h0.symm]
  rw [runGroup_uint32_bounded v.toUInt32 hcase hle hzero]
  simp

theorem run_headerGroups (hh : HeaderFits h) :
    (headerGroups h).foldlM (runGroup headerSwitch) {} = .ok h := by
  have hversion : h.version.toNat ≤ maxUint32 := by
    have := h.version.toNat_lt
    rw [maxUint32]
    omega
  refine runGroups_cons (runGroup_uint32_bounded h.version rfl hversion rfl) ?_
  refine runGroups_cons (runGroup_uint64 h.height rfl rfl) ?_
  refine runGroups_cons (runGroup_timestamp hh.timestamp rfl) ?_
  refine runGroups_cons (runGroup_hash h.parentHash rfl) ?_
  refine runGroups_cons (runGroup_hash h.stateRoot rfl) ?_
  refine runGroups_cons (runGroup_hash h.txRoot rfl) ?_
  refine runGroups_cons (runGroup_hash h.receiptRoot rfl) ?_
  refine runGroups_cons (runGroup_address h.proposerAddr rfl) ?_
  refine runGroups_cons (runGroup_bytes h.vrfProof rfl rfl) ?_
  refine runGroups_cons (runGroup_hash h.vrfValue rfl) ?_
  refine runGroups_cons (runGroup_bytes h.signature rfl rfl) ?_
  refine runGroups_cons (runGroup_uint64 h.slot rfl rfl) ?_
  refine runGroups_cons (runGroup_uint64 h.epoch rfl rfl) ?_
  refine runGroups_cons (runGroup_hash_nonzero h.randaoReveal rfl rfl) ?_
  refine runGroups_cons (runGroup_bytes h.attestations rfl rfl) ?_
  refine runGroups_cons (runGroup_uint64 h.justifiedEpoch rfl rfl) ?_
  refine runGroups_cons (runGroup_uint64 h.finalizedEpoch rfl rfl) ?_
  refine runGroups_cons (runGroup_uint64Always h.chainID rfl) ?_
  refine runGroups_cons (runGroup_baseFee hh.baseFee rfl) ?_
  refine runGroups_cons (runGroup_uint64 h.gasUsed rfl rfl) ?_
  refine runGroups_cons (runGroup_uint64 h.gasLimit rfl rfl) ?_
  refine runGroups_cons (runGroup_uint64 h.excessBlobGas rfl rfl) ?_
  refine runGroups_cons (runGroup_uint64 h.blobGasUsed rfl rfl) ?_
  refine runGroups_cons (runGroup_bytes h.syncCommitteeSig rfl rfl) ?_
  refine runGroups_cons (runGroup_bytes h.syncCommitteeBits rfl rfl) ?_
  refine runGroups_cons (runGroup_bytes h.daAttestation rfl rfl) ?_
  refine runGroups_cons (runGroup_bytes h.daBlobCommitments rfl rfl) ?_
  refine runGroups_cons (runGroup_uint64Always h.keyVersion rfl) ?_
  refine runGroups_cons (runGroup_bytes h.qtdSignature rfl rfl) ?_
  refine runGroups_cons (runGroup_hash_nonzero h.reviewAttestationRoot rfl rfl) ?_
  refine runGroups_cons (runGroup_bytes h.executiveSealers rfl rfl) ?_
  refine runGroups_cons (runGroup_finalityType h.finalityType rfl) ?_
  refine runGroups_cons (runGroup_hash_nonzero h.vrfAccumulator rfl rfl) ?_
  refine runGroups_cons (runGroup_bytes h.qtdGroupKey rfl rfl) ?_
  refine runGroups_cons (runGroup_bytes h.qtdGroupKeyProof rfl rfl) ?_
  simp [pure, Except.pure]

def headerFieldNums : List Nat :=
  [1, 2, 3, 4, 5, 6, 7, 8, 9, 10, 11, 12, 13, 14, 15, 16, 17, 18, 19, 20, 21, 24, 25, 22, 23, 26, 27,
    28, 29, 30, 31, 32, 33, 34, 35]

theorem headerGroups_nums (h : BlockHeader) :
    (headerGroups h).map WireGroup.num = headerFieldNums := rfl

theorem headerGroups_single (h : BlockHeader) : ∀ g ∈ headerGroups h, g.values.length ≤ 1 := by
  have htime : ∀ v : Int64, (encodeInt64Field v).length ≤ 1 := by
    intro v
    unfold encodeInt64Field
    split <;> simp
  have hfee : ∀ v : Option Int, (encodeBaseFee v).length ≤ 1 := by
    intro v
    cases v with
    | none => exact Nat.zero_le 1
    | some x =>
      simp only [encodeBaseFee]
      split
      · exact encodeBytesField_length_le _
      · exact Nat.zero_le 1
  simp [headerGroups, htime, hfee, encodeUint32Field_length_le, encodeUint64Field_length_le,
    encodeBytesField_length_le, encodeHashField_length_le, encodeUint64FieldAlways]

theorem marshalBlockHeader_ne_nil (h : BlockHeader) : marshalBlockHeader h ≠ [] := by
  rw [marshalBlockHeader, Ne, encodeFields_eq_nil]
  simp [headerGroups, groupFields, WireGroup.fields, encodeUint64FieldAlways]

theorem unmarshalBlockHeader_marshal (hh : HeaderFits h)
    (hsize : (marshalBlockHeader h).length ≤ maxWireBytesSize) :
    unmarshalBlockHeader (marshalBlockHeader h) = .ok h := by
  have hne : (marshalBlockHeader h).length ≠ 0 := by
    simpa using marshalBlockHeader_ne_nil h
  rw [unmarshalBlockHeader, if_neg hne]
  exact decodeMessage_groups (fun _ => false) headerSwitch (by rw [headerGroups_nums]; decide)
    (by rw [headerGroups_nums]; decide) (fun g hg => .inr (headerGroups_single h g hg)) hsize
    (run_headerGroups hh)

/-! ## Round trips of whole blocks -/

/-- The two transactions agree in what their type carries. -/
def SameCarried (tx tx' : Transaction) : Prop := carried tx' = carried tx

/-- The transaction's own round trip. -/
def RoundTrips (tx : Transaction) : Prop :=
  ∃ tx', unmarshalTransaction (marshalTransaction tx) = .ok tx' ∧ SameCarried tx tx'

/-- `b'` has the header hash and the signing root of `h` and the
transactions `txs` in order. -/
def SameBlock (h : BlockHeader) (txs : List Transaction) (b' : Block) : Prop :=
  ∃ h', b'.header = some h' ∧
    (∀ sha3 : Bytes → Hash, headerHash sha3 h' = headerHash sha3 h ∧
      blockHeaderSigningRoot sha3 h' = blockHeaderSigningRoot sha3 h) ∧
    List.Forall₂ SameCarried txs b'.transactions

theorem SameBlock.of_header {txs' : List Transaction} (htxs : List.Forall₂ SameCarried txs txs') :
    SameBlock h txs ⟨some h, txs'⟩ :=
  ⟨h, rfl, fun _ => ⟨rfl, rfl⟩, htxs⟩

theorem SameBlock.length_eq (hb : SameBlock h txs b) : b.transactions.length = txs.length := by
  obtain ⟨h', -, -, htxs⟩ := hb
  exact htxs.length_eq.symm

theorem RoundTrips.size {tx : Transaction} (h : RoundTrips tx) :
    (marshalTransaction tx).length ≤ maxTransactionSize := by
  obtain ⟨tx', h, -⟩ := h
  unfold unmarshalTransaction at h
  split_ifs at h with h0 hsize
  omega

theorem encodeBytesField_marshal (tx : Transaction) :
    encodeBytesField (marshalTransaction tx) = [.bytes (marshalTransaction tx)] :=
  encodeBytesField_of_ne (marshalTransaction_ne_nil tx)

theorem run_transactions (htxs : ∀ tx ∈ txs, RoundTrips tx) (b : Block)
    (hcount : b.transactions.length + txs.length ≤ maxTxPerBlock) :
    ∃ txs', List.Forall₂ SameCarried txs txs' ∧
      runGroup blockSwitch b ⟨2, txs.flatMap fun tx => encodeBytesField (marshalTransaction tx)⟩ =
        .ok { b with transactions := b.transactions ++ txs' } := by
  induction txs generalizing b with
  | nil =>
    refine ⟨[], List.Forall₂.nil, ?_⟩
    rw [List.append_nil]
    rfl
  | cons tx txs ih =>
    rw [List.length_cons] at hcount
    have htx := htxs tx (by simp)
    have hsize : ¬ maxTxSizeBytes < (marshalTransaction tx).length := by
      have hlimit : maxTransactionSize ≤ maxTxSizeBytes := by decide
      have := htx.size
      omega
    obtain ⟨tx', hdec, hsame⟩ := htx
    have hstep : applyCase (blockSwitch b 2) b (.bytes (marshalTransaction tx)) =
        .ok { b with transactions := b.transactions ++ [tx'] } := by
      simp only [blockSwitch, applyCase, if_neg hsize, if_neg (show ¬ maxTxPerBlock <
        b.transactions.length + 1 by omega), hdec, refused]
    have hrest : (b.transactions ++ [tx']).length + txs.length ≤ maxTxPerBlock := by
      rw [List.length_append, List.length_singleton]
      omega
    obtain ⟨txs', hforall, hrun⟩ := ih (fun t ht => htxs t (by simp [ht]))
      { b with transactions := b.transactions ++ [tx'] } hrest
    refine ⟨tx' :: txs', List.Forall₂.cons hsame hforall, ?_⟩
    rw [List.append_cons, List.flatMap_cons, encodeBytesField_marshal, List.singleton_append,
      runGroup, List.foldlM_cons, hstep]
    exact hrun

/-! ## Blocks of embedded messages -/

def blockGroups (h : BlockHeader) (txs : List Transaction) : List WireGroup :=
  [ ⟨1, encodeBytesField (marshalBlockHeader h)⟩,
    ⟨2, txs.flatMap fun tx => encodeBytesField (marshalTransaction tx)⟩ ]

theorem marshalBlock_eq (h : BlockHeader) (txs : List Transaction) : marshalBlock ⟨some h, txs⟩ =
      encodeFields (groupFields (blockGroups h txs)) := rfl

theorem length_header_le_marshalBlock (h : BlockHeader) (txs : List Transaction) :
    (marshalBlockHeader h).length ≤
      (marshalBlock ⟨some h, txs⟩).length := by
  have hmem : (⟨1, .bytes (marshalBlockHeader h)⟩ : WireField) ∈ groupFields (blockGroups h txs) := by
    rw [blockGroups, encodeBytesField_of_ne (marshalBlockHeader_ne_nil h)]
    simp [WireGroup.fields]
  have hle := encode_length_le hmem
  rw [← marshalBlock_eq, WireField.encode, WireValue.encode, encodeBytes] at hle
  simp only [List.length_append] at hle
  omega

theorem decodeMessage_block (hh : HeaderFits h) (htxs : ∀ tx ∈ txs, RoundTrips tx)
    (hsize : (marshalBlock ⟨some h, txs⟩).length ≤ maxBlockSizeBytes)
    (hcount : txs.length ≤ maxTxPerBlock) : ∃ txs', List.Forall₂ SameCarried txs txs' ∧
      decodeMessage (fun n => n = 2) blockSwitch {}
        (marshalBlock ⟨some h, txs⟩) =
          .ok ⟨some h, txs'⟩ := by
  have hlimit : maxBlockSizeBytes ≤ maxWireBytesSize := by decide
  have hheader := unmarshalBlockHeader_marshal hh
    ((length_header_le_marshalBlock h txs).trans (hsize.trans hlimit))
  have hfirst : runGroup blockSwitch {} ⟨1, encodeBytesField (marshalBlockHeader h)⟩ =
      .ok { header := some h } := by
    rw [encodeBytesField_of_ne (marshalBlockHeader_ne_nil h), runGroup_singleton]
    simp only [blockSwitch, applyCase, hheader, refused]
  obtain ⟨txs', hforall, hrun⟩ := run_transactions htxs { header := some h }
    ((Nat.zero_add _).trans_le hcount)
  refine ⟨txs', hforall, ?_⟩
  rw [marshalBlock_eq]
  exact decodeMessage_groups (fun n => n = 2) blockSwitch (by simp [blockGroups])
    (by simp [blockGroups]) (by simp [blockGroups, encodeBytesField_length_le])
    (hsize.trans hlimit) (runGroups_cons hfirst (runGroups_cons hrun rfl))

/-- The decoder never takes more transactions than its limit. -/
theorem blockSwitch_count (hb : b.transactions.length ≤ maxTxPerBlock) (n : Nat) :
    Yields (blockSwitch b n) b fun b' => b'.transactions.length ≤ maxTxPerBlock := by
  unfold blockSwitch
  split
  · refine yields_bytesWith fun d b' _ hd => ?_
    split at hd
    · cases hd
    · exact Except.ok.inj hd ▸ hb
  · refine yields_bytesWith fun d b' _ hd => ?_
    split_ifs at hd with h1 h2
    split at hd
    · cases hd
    · obtain rfl := Except.ok.inj hd
      rw [List.length_append, List.length_singleton]
      omega
  · exact yields_unknown hb

/-- Decoding what `MarshalBlock` wrote returns the block exactly when it is
within the limits. -/
theorem unmarshalBlock_marshalBlock_iff (hh : HeaderFits h) (htxs : ∀ tx ∈ txs, RoundTrips tx) :
    (∃ b', unmarshalBlock (marshalBlock ⟨some h, txs⟩) = .ok b' ∧
      SameBlock h txs b') ↔
    (marshalBlock ⟨some h, txs⟩).length ≤ maxBlockSizeBytes ∧
      txs.length ≤ maxTxPerBlock := by
  have hne : (marshalBlock ⟨some h, txs⟩).length ≠ 0 := by
    have := length_header_le_marshalBlock h txs
    have := List.length_pos_of_ne_nil (marshalBlockHeader_ne_nil h)
    omega
  constructor
  · rintro ⟨b', hb', hsame⟩
    unfold unmarshalBlock at hb'
    split_ifs at hb' with h0 hsize
    refine ⟨by omega, ?_⟩
    rw [← hsame.length_eq]
    split at hb'
    · cases hb'
    · rename_i b1 hdec
      split_ifs at hb'
      obtain rfl := Except.ok.inj hb'
      have hbudget : maxBlockSizeBytes ≤ maxWireTotalSize := by decide
      obtain ⟨fs, hfs, -, hrun⟩ := (decodeMessage_ok_iff _ blockSwitch (by omega)).mp hdec
      exact foldlM_applyField_invariant blockSwitch
        (fun b f _ hb => blockSwitch_count hb f.num f.value) hfs (Nat.zero_le _) ((runFields_ok_iff _ blockSwitch).mp hrun).2
  · rintro ⟨hsize, hcount⟩
    obtain ⟨txs', hforall, hdec⟩ := decodeMessage_block hh htxs hsize hcount
    refine ⟨_, ?_, SameBlock.of_header hforall⟩
    rw [unmarshalBlock, if_neg hne, if_neg (Nat.not_lt.mpr hsize), hdec]
    rfl

/-! ## Compact blocks -/

/-- The bytes of a compact block whose parts are within 32 bits. -/
def compactBytes (h : BlockHeader) (txs : List Transaction) : Bytes :=
  encodePart (marshalBlockHeader h) ++ bigEndian 4 txs.length ++
    (txs.map marshalTransaction).flatMap encodePart

theorem marshalBlockCompact_ok (hd : marshalBlockCompact ⟨some h, txs⟩ = .ok d) :
    d = compactBytes h txs ∧ (marshalBlockHeader h).length ≤ maxUint32 ∧
      txs.length ≤ maxUint32 := by
  simp only [marshalBlockCompact] at hd
  split_ifs at hd with h1 h2
  split at hd
  · cases hd
  · exact ⟨(Except.ok.inj hd).symm, by omega, by omega⟩

theorem marshalBlockCompact_eq (hh : (marshalBlockHeader h).length ≤ maxUint32)
    (hn : txs.length ≤ maxUint32) (htxs : ∀ tx ∈ txs, (marshalTransaction tx).length ≤ maxUint32) :
    marshalBlockCompact ⟨some h, txs⟩ = .ok (compactBytes h txs) := by
  have hfind : (txs.map marshalTransaction).find? (fun d => maxUint32 < d.length) = none := by
    rw [List.find?_eq_none]
    intro d hd
    obtain ⟨tx, htx, rfl⟩ := List.mem_map.mp hd
    have := htxs tx htx
    simpa using this
  simp only [marshalBlockCompact, if_neg (Nat.not_lt.mpr hh), if_neg (Nat.not_lt.mpr hn), hfind]
  rfl

theorem ofBigEndian_take_four (hn : n ≤ maxUint32) (rest : Bytes) :
    ofBigEndian ((bigEndian 4 n ++ rest).take 4) = n := by
  rw [List.take_left' (bigEndian_length 4 n)]
  refine ofBigEndian_bigEndian_of_lt ?_
  rw [maxUint32] at hn
  omega

theorem drop_four (n : Nat) (rest : Bytes) : (bigEndian 4 n ++ rest).drop 4 = rest :=
  List.drop_left' (bigEndian_length 4 n)

theorem length_four (n : Nat) (rest : Bytes) : ¬ (bigEndian 4 n ++ rest).length < 4 := by
  rw [List.length_append, bigEndian_length]
  omega

theorem readTransactions_parts (htxs : ∀ tx ∈ txs, RoundTrips tx) (rest : Bytes) :
    ∃ txs', List.Forall₂ SameCarried txs txs' ∧
      readTransactions txs.length ((txs.map marshalTransaction).flatMap encodePart ++ rest) =
        .ok txs' := by
  induction txs with
  | nil => exact ⟨[], List.Forall₂.nil, rfl⟩
  | cons tx txs ih =>
    obtain ⟨txs', hforall, hrun⟩ := ih fun t ht => htxs t (by simp [ht])
    have htx := htxs tx (by simp)
    have hsize := htx.size
    have hsize32 : maxTransactionSize ≤ maxUint32 := by decide
    have hsizeTx : maxTransactionSize ≤ maxTxSizeBytes := by decide
    obtain ⟨tx', hdec, hsame⟩ := htx
    refine ⟨tx' :: txs', List.Forall₂.cons hsame hforall, ?_⟩
    rw [List.map_cons, List.flatMap_cons, encodePart, List.append_assoc, List.append_assoc,
      List.length_cons, readTransactions]
    simp only [if_neg (length_four _ _), ofBigEndian_take_four (hsize.trans hsize32), drop_four]
    rw [if_neg (by rw [List.length_append]; omega), if_neg (by omega), List.take_left' rfl,
      List.drop_left' rfl, hdec, hrun]

/-- Decoding what `MarshalBlockCompact` wrote returns the block exactly when
it is within the limits, the header's own limit included. -/
theorem unmarshalBlockCompact_marshal_iff (hh : HeaderFits h) (htxs : ∀ tx ∈ txs, RoundTrips tx) :
    (∃ d b', marshalBlockCompact ⟨some h, txs⟩ = .ok d ∧
      unmarshalBlockCompact d = .ok b' ∧ SameBlock h txs b') ↔
    (compactBytes h txs).length ≤ maxBlockSizeBytes ∧
      (marshalBlockHeader h).length ≤ maxTxSizeBytes ∧ txs.length ≤ maxTxPerBlock := by
  have heq : compactBytes h txs = bigEndian 4 (marshalBlockHeader h).length ++
      (marshalBlockHeader h ++ (bigEndian 4 txs.length ++
        ((txs.map marshalTransaction).flatMap encodePart ++ []))) := by
    simp [compactBytes, encodePart]
  constructor
  · rintro ⟨d, b', hd, hb', hsame⟩
    obtain ⟨rfl, hhlen, hn⟩ := marshalBlockCompact_ok hd
    rw [unmarshalBlockCompact] at hb'
    split_ifs at hb' with h1 h2
    refine ⟨by omega, ?_⟩
    rw [heq] at hb'
    simp only [ofBigEndian_take_four hhlen, drop_four] at hb'
    split_ifs at hb' with h3 h4
    refine ⟨by omega, ?_⟩
    rw [List.take_left' rfl, List.drop_left' rfl] at hb'
    split at hb'
    · cases hb'
    · simp only [readCountedTransactions, if_neg (length_four _ _), ofBigEndian_take_four hn] at hb'
      split_ifs at hb' with h5
      omega
  · rintro ⟨hsize, hheader, hcount⟩
    have h32 : maxTxSizeBytes ≤ maxUint32 := by decide
    have hwire : maxTxSizeBytes ≤ maxWireBytesSize := by decide
    have hcount32 : maxTxPerBlock ≤ maxUint32 := by decide
    have htx32 : ∀ tx ∈ txs, (marshalTransaction tx).length ≤ maxUint32 :=
      fun tx htx => (htxs tx htx).size.trans (by decide)
    obtain ⟨txs', hforall, hrun⟩ := readTransactions_parts htxs []
    refine ⟨_, _, marshalBlockCompact_eq (hheader.trans h32) (hcount.trans hcount32) htx32, ?_,
      SameBlock.of_header hforall⟩
    have hlong : ¬ (compactBytes h txs).length < 8 := by
      rw [heq]
      simp only [List.length_append, bigEndian_length]
      omega
    rw [unmarshalBlockCompact, if_neg hlong, if_neg (Nat.not_lt.mpr hsize), heq]
    simp only [ofBigEndian_take_four (hheader.trans h32), drop_four]
    rw [if_neg (by rw [List.length_append]; omega), if_neg (Nat.not_lt.mpr hheader),
      List.take_left' rfl, List.drop_left' rfl,
      unmarshalBlockHeader_marshal hh (hheader.trans hwire)]
    simp only [readCountedTransactions, if_neg (length_four _ _),
      ofBigEndian_take_four (hcount.trans hcount32), drop_four, if_neg (Nat.not_lt.mpr hcount), hrun]

/-! ## Bytes after a compact block -/

theorem take_append_of_not_lt (h : ¬ d.length < n) :
    (d ++ e).take n = d.take n := List.take_append_of_le_length (by omega)

theorem drop_append_of_not_lt (h : ¬ d.length < n) :
    (d ++ e).drop n = d.drop n ++ e := List.drop_append_of_le_length (by omega)

theorem not_lt_append (h : ¬ d.length < n) : ¬ (d ++ e).length < n := by
  rw [List.length_append]
  omega

theorem readTransactions_append
    (h : readTransactions n d = .ok txs) (e : Bytes) : readTransactions n (d ++ e) = .ok txs := by
  induction n generalizing d txs with
  | zero => exact h
  | succ n ih =>
    rw [readTransactions] at h
    split_ifs at h with h1
    dsimp only at h
    split_ifs at h with h2 h3
    rw [readTransactions, if_neg (not_lt_append h1)]
    simp only [take_append_of_not_lt h1, drop_append_of_not_lt h1, if_neg (not_lt_append h2),
      if_neg h3, take_append_of_not_lt h2, drop_append_of_not_lt h2]
    cases htx : unmarshalTransaction ((d.drop 4).take (ofBigEndian (d.take 4))) with
    | error x => simp [htx] at h
    | ok tx =>
      cases hrest : readTransactions n ((d.drop 4).drop (ofBigEndian (d.take 4))) with
      | error x => simp only [htx, hrest, reduceCtorEq] at h
      | ok txs' =>
        simp only [htx, hrest] at h
        simp only [ih hrest, h]

theorem readCountedTransactions_append {header : BlockHeader}
    (h : readCountedTransactions header d = .ok b) (e : Bytes) :
    readCountedTransactions header (d ++ e) = .ok b := by
  rw [readCountedTransactions] at h
  split_ifs at h with h1
  dsimp only at h
  split_ifs at h with h2
  rw [readCountedTransactions, if_neg (not_lt_append h1)]
  simp only [take_append_of_not_lt h1, drop_append_of_not_lt h1, if_neg h2]
  cases htxs : readTransactions (ofBigEndian (d.take 4)) (d.drop 4) with
  | error x => simp [htxs] at h
  | ok txs =>
    simp only [htxs] at h
    simp only [readTransactions_append htxs, h]

/-- Whatever follows an accepted compact block is accepted with it. -/
theorem unmarshalBlockCompact_append (h : unmarshalBlockCompact d = .ok b)
    (hsize : (d ++ e).length ≤ maxBlockSizeBytes) : unmarshalBlockCompact (d ++ e) = .ok b := by
  rw [unmarshalBlockCompact] at h
  split_ifs at h with h1 h2
  dsimp only at h
  split_ifs at h with h3 h4
  have h5 : ¬ d.length < 4 := by omega
  rw [unmarshalBlockCompact, if_neg (not_lt_append h1), if_neg (Nat.not_lt.mpr hsize)]
  simp only [take_append_of_not_lt h5, drop_append_of_not_lt h5, if_neg (not_lt_append h3),
    if_neg h4, take_append_of_not_lt h3, drop_append_of_not_lt h3]
  cases hheader : unmarshalBlockHeader ((d.drop 4).take (ofBigEndian (d.take 4))) with
  | error x => simp [hheader] at h
  | ok header =>
    simp only [hheader] at h
    exact readCountedTransactions_append h e

theorem unmarshalBlockCompact_size (h : unmarshalBlockCompact d = .ok b) :
    d.length ≤ maxBlockSizeBytes := by
  rw [unmarshalBlockCompact] at h
  split_ifs at h with h1 h2
  omega

/-- An accepted compact block has no accepted proper extension exactly when
there is no room for one. -/
theorem unmarshalBlockCompact_extension_iff (h : unmarshalBlockCompact d = .ok b) :
    (∀ e ≠ [], ∀ b', unmarshalBlockCompact (d ++ e) ≠ .ok b') ↔ d.length = maxBlockSizeBytes := by
  have hsize := unmarshalBlockCompact_size h
  constructor
  · intro hnone
    by_contra hne
    have hroom : (d ++ [0]).length ≤ maxBlockSizeBytes := by
      rw [List.length_append, List.length_singleton]
      omega
    exact hnone [0] (by simp) b (unmarshalBlockCompact_append h hroom)
  · intro hfull e he b' hb'
    have := unmarshalBlockCompact_size hb'
    have := List.length_pos_of_ne_nil he
    rw [List.length_append] at *
    omega

/-- Both formats return the header and the transactions of every block
within their limits and of no other block; the compact decoder takes an
accepted byte string with more bytes after it unless it is full. -/
theorem block_codecs_iff {h : BlockHeader} {txs : List Transaction} (hh : HeaderFits h)
    (htxs : ∀ tx ∈ txs, RoundTrips tx) :
    ((∃ b', unmarshalBlock (marshalBlock { header := some h, transactions := txs }) = .ok b' ∧
        SameBlock h txs b') ↔
      (marshalBlock { header := some h, transactions := txs }).length ≤ maxBlockSizeBytes ∧
        txs.length ≤ maxTxPerBlock) ∧
    ((∃ d b', marshalBlockCompact { header := some h, transactions := txs } = .ok d ∧
        unmarshalBlockCompact d = .ok b' ∧ SameBlock h txs b') ↔
      (compactBytes h txs).length ≤ maxBlockSizeBytes ∧
        (marshalBlockHeader h).length ≤ maxTxSizeBytes ∧ txs.length ≤ maxTxPerBlock) ∧
    ∀ d b, unmarshalBlockCompact d = .ok b →
      ((∀ e ≠ [], ∀ b', unmarshalBlockCompact (d ++ e) ≠ .ok b') ↔
        d.length = maxBlockSizeBytes) :=
  ⟨unmarshalBlock_marshalBlock_iff hh htxs, unmarshalBlockCompact_marshal_iff hh htxs,
    fun _ _ => unmarshalBlockCompact_extension_iff⟩

/-- A header of the first block with a base fee. -/
def firstHeader : BlockHeader :=
  { version := 1, height := 1, timestamp := 1700000000, chainID := 1668, baseFee := some 7 }

/-- A transaction with both its signatures. -/
def twoSigned : Transaction := oneOfTwo [[0x51], [0x52]]

theorem block_codecs_firstHeader : HeaderFits firstHeader ∧ RoundTrips twoSigned ∧
    (∃ b', unmarshalBlock (marshalBlock ⟨some firstHeader, [twoSigned]⟩) = .ok b' ∧
      SameBlock firstHeader [twoSigned] b') ∧
    (∃ d b', marshalBlockCompact ⟨some firstHeader, [twoSigned]⟩ = .ok d ∧
      unmarshalBlockCompact d = .ok b' ∧ SameBlock firstHeader [twoSigned] b' ∧
      ¬ ∀ e ≠ [], ∀ b', unmarshalBlockCompact (d ++ e) ≠ .ok b') := by
  have hheader : HeaderFits firstHeader :=
    ⟨by decide, fun v hv => by obtain rfl := Option.some.inj hv; decide⟩
  have hlimits : TxLimits twoSigned :=
    oneOfTwo_limits (by decide) (by decide) (by decide +kernel)
  have htx : RoundTrips twoSigned :=
    ⟨_, unmarshal_marshal hlimits, (carried_readBack_iff _).mpr ⟨fun _ => by decide, by decide⟩⟩
  obtain ⟨hfull, hcompact, hextend⟩ :=
    @block_codecs_iff firstHeader [twoSigned] hheader (by simpa using htx)
  obtain ⟨d, b', hd, hb, hsame⟩ := hcompact.mpr (by decide +kernel)
  refine ⟨hheader, htx, hfull.mpr (by decide +kernel), d, b', hd, hb, hsame, ?_⟩
  rw [hextend d b' hb]
  have hlen : ∀ d ∈ (marshalBlockCompact ⟨some firstHeader, [twoSigned]⟩).toOption,
      d.length ≠ maxBlockSizeBytes := by decide +kernel
  exact hlen d (by rw [hd]; rfl)

/-- A compact block without transactions, and the same with a byte after it. -/
theorem unmarshalBlockCompact_trailing_byte : unmarshalBlockCompact [0, 0, 0, 2, 8, 1, 0, 0, 0, 0] =
        .ok { header := some { version := 1 } } ∧
      unmarshalBlockCompact ([0, 0, 0, 2, 8, 1, 0, 0, 0, 0] ++ [0xff]) =
        .ok { header := some { version := 1 } } := by
  exact ⟨by decide +kernel, by decide +kernel⟩

end Qau
