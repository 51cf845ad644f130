import Qau.TransactionCodec

/-!
# The block codecs

Model of `encoding/block_header.go` and `encoding/block.go`: the header
codec, the block format of embedded messages (`MarshalBlock`) and the
compact format of length-prefixed parts (`MarshalBlockCompact`). The
compact decoder follows an offset into the data; here it is the rest of
the data that is passed on. Nil transactions, on which both encoders fail,
are left out.
-/

namespace Qau

/-- `BlockHeader`; the defaults are Go's zero values. -/
structure BlockHeader where
  version : UInt32 := 0
  height : UInt64 := 0
  timestamp : Int64 := 0
  parentHash : Hash := zeroArr 32
  stateRoot : Hash := zeroArr 32
  txRoot : Hash := zeroArr 32
  receiptRoot : Hash := zeroArr 32
  proposerAddr : Address := zeroArr 20
  vrfProof : Bytes := []
  vrfValue : Hash := zeroArr 32
  signature : Bytes := []
  chainID : UInt64 := 0
  slot : UInt64 := 0
  epoch : UInt64 := 0
  randaoReveal : Hash := zeroArr 32
  attestations : Bytes := []
  justifiedEpoch : UInt64 := 0
  finalizedEpoch : UInt64 := 0
  keyVersion : UInt64 := 0
  baseFee : Option Int := none
  gasUsed : UInt64 := 0
  gasLimit : UInt64 := 0
  excessBlobGas : UInt64 := 0
  blobGasUsed : UInt64 := 0
  syncCommitteeSig : Bytes := []
  syncCommitteeBits : Bytes := []
  daAttestation : Bytes := []
  daBlobCommitments : Bytes := []
  qtdSignature : Bytes := []
  reviewAttestationRoot : Hash := zeroArr 32
  executiveSealers : Bytes := []
  finalityType : UInt8 := 0
  qtdGroupKey : Bytes := []
  qtdGroupKeyProof : Bytes := []
  vrfAccumulator : Hash := zeroArr 32
  deriving DecidableEq

/-! ## The header -/

/-- `EncodeInt64Field`: two's complement, a zero is not written. -/
def encodeInt64Field (v : Int64) : List WireValue :=
  if v ≠ 0 then [.varint v.toUInt64] else []

/-- The base fee, written when it is positive. -/
def encodeBaseFee : Option Int → List WireValue
  | none => []
  | some v => if 0 < v then encodeBytesField (bigBytes v.natAbs) else []

/-- The groups `MarshalBlockHeader` writes, in its order. -/
def headerGroups (h : BlockHeader) : List WireGroup :=
  [ ⟨1, encodeUint32Field h.version⟩,
    ⟨2, encodeUint64Field h.height⟩,
    ⟨3, encodeInt64Field h.timestamp⟩,
    ⟨4, encodeBytesField h.parentHash.toList⟩,
    ⟨5, encodeBytesField h.stateRoot.toList⟩,
    ⟨6, encodeBytesField h.txRoot.toList⟩,
    ⟨7, encodeBytesField h.receiptRoot.toList⟩,
    ⟨8, encodeBytesField h.proposerAddr.toList⟩,
    ⟨9, encodeBytesField h.vrfProof⟩,
    ⟨10, encodeBytesField h.vrfValue.toList⟩,
    ⟨11, encodeBytesField h.signature⟩,
    ⟨12, encodeUint64Field h.slot⟩,
    ⟨13, encodeUint64Field h.epoch⟩,
    ⟨14, encodeHashField h.randaoReveal⟩,
    ⟨15, encodeBytesField h.attestations⟩,
    ⟨16, encodeUint64Field h.justifiedEpoch⟩,
    ⟨17, encodeUint64Field h.finalizedEpoch⟩,
    ⟨18, encodeUint64FieldAlways h.chainID⟩,
    ⟨19, encodeBaseFee h.baseFee⟩,
    ⟨20, encodeUint64Field h.gasUsed⟩,
    ⟨21, encodeUint64Field h.gasLimit⟩,
    ⟨24, encodeUint64Field h.excessBlobGas⟩,
    ⟨25, encodeUint64Field h.blobGasUsed⟩,
    ⟨22, encodeBytesField h.syncCommitteeSig⟩,
    ⟨23, encodeBytesField h.syncCommitteeBits⟩,
    ⟨26, encodeBytesField h.daAttestation⟩,
    ⟨27, encodeBytesField h.daBlobCommitments⟩,
    ⟨28, encodeUint64FieldAlways h.keyVersion⟩,
    ⟨29, encodeBytesField h.qtdSignature⟩,
    ⟨30, encodeHashField h.reviewAttestationRoot⟩,
    ⟨31, encodeBytesField h.executiveSealers⟩,
    ⟨32, encodeUint32Field h.finalityType.toUInt32⟩,
    ⟨33, encodeHashField h.vrfAccumulator⟩,
    ⟨34, encodeBytesField h.qtdGroupKey⟩,
    ⟨35, encodeBytesField h.qtdGroupKeyProof⟩ ]

def marshalBlockHeader (h : BlockHeader) : Bytes := encodeFields (groupFields (headerGroups h))

def maxInt64 : Nat := 2 ^ 63 - 1

/-- The switch of `UnmarshalBlockHeader`. -/
def headerSwitch (h : BlockHeader) : Nat → FieldCase BlockHeader EncodingError
  | 1 => boundedCase "version" maxUint32 fun v => { h with version := v.toUInt32 }
  | 2 => uint64Case "height" fun v => { h with height := v }
  | 3 => boundedCase "timestamp" maxInt64 fun v => { h with timestamp := v.toInt64 }
  | 4 => hashCase "parent_hash" .invalidHash fun a => { h with parentHash := a }
  | 5 => hashCase "state_root" .invalidHash fun a => { h with stateRoot := a }
  | 6 => hashCase "tx_root" .invalidHash fun a => { h with txRoot := a }
  | 7 => hashCase "receipt_root" .invalidHash fun a => { h with receiptRoot := a }
  | 8 => addressCase "proposer_addr" fun a => { h with proposerAddr := a }
  | 9 => bytesCase "vrf_proof" fun d => { h with vrfProof := d }
  | 10 => hashCase "vrf_value" .invalidHash fun a => { h with vrfValue := a }
  | 11 => bytesCase "signature" fun d => { h with signature := d }
  | 12 => uint64Case "slot" fun v => { h with slot := v }
  | 13 => uint64Case "epoch" fun v => { h with epoch := v }
  | 14 => hashCase "randao_reveal" .invalidHash fun a => { h with randaoReveal := a }
  | 15 => bytesCase "attestations" fun d => { h with attestations := d }
  | 16 => uint64Case "justified_epoch" fun v => { h with justifiedEpoch := v }
  | 17 => uint64Case "finalized_epoch" fun v => { h with finalizedEpoch := v }
  | 18 => uint64Case "chain_id" fun v => { h with chainID := v }
  | 19 => intCase "base_fee" fun v => { h with baseFee := some v }
  | 20 => uint64Case "gas_used" fun v => { h with gasUsed := v }
  | 21 => uint64Case "gas_limit" fun v => { h with gasLimit := v }
  | 22 => bytesCase "sync_committee_sig" fun d => { h with syncCommitteeSig := d }
  | 23 => bytesCase "sync_committee_bits" fun d => { h with syncCommitteeBits := d }
  | 24 => uint64Case "excess_blob_gas" fun v => { h with excessBlobGas := v }
  | 25 => uint64Case "blob_gas_used" fun v => { h with blobGasUsed := v }
  | 26 => bytesCase "da_attestation" fun d => { h with daAttestation := d }
  | 27 => bytesCase "da_blob_commitments" fun d => { h with daBlobCommitments := d }
  | 28 => uint64Case "key_version" fun v => { h with keyVersion := v }
  | 29 => bytesCase "qtd_signature" fun d => { h with qtdSignature := d }
  | 30 => hashCase "review_attestation_root" .invalidHash
      fun a => { h with reviewAttestationRoot := a }
  | 31 => bytesCase "executive_sealers" fun d => { h with executiveSealers := d }
  | 32 => boundedCase "finality_type" 255 fun v => { h with finalityType := v.toUInt8 }
  | 33 => hashCase "vrf_accumulator" .badLength fun a => { h with vrfAccumulator := a }
  | 34 => bytesCase "qtd_group_key" fun d => { h with qtdGroupKey := d }
  | 35 => bytesCase "qtd_group_key_proof" fun d => { h with qtdGroupKeyProof := d }
  | _ => .unknown

/-- `UnmarshalBlockHeader`: no field may come twice. -/
def unmarshalBlockHeader (data : Bytes) : Except (MessageError EncodingError) BlockHeader :=
  if data.length = 0 then .error (.field .emptyData)
  else decodeMessage (fun _ => false) headerSwitch {} data

/-- The block hash: SHA3-256 of the encoded header. -/
def headerHash (sha3 : Bytes → Hash) (h : BlockHeader) : Hash := sha3 (marshalBlockHeader h)

/-- The header without its signatures and what is added after signing. -/
def signingHeader (h : BlockHeader) : BlockHeader :=
  { h with
    signature := []
    syncCommitteeSig := []
    syncCommitteeBits := []
    qtdSignature := []
    executiveSealers := []
    reviewAttestationRoot := zeroArr 32
    finalityType := 0
    qtdGroupKey := []
    qtdGroupKeyProof := [] }

def blockHeaderSigningRoot (sha3 : Bytes → Hash) (h : BlockHeader) : Hash :=
  sha3 (marshalBlockHeader (signingHeader h))

/-! ## Blocks of embedded messages -/

structure Block where
  header : Option BlockHeader := none
  transactions : List Transaction := []
  deriving DecidableEq

/-- Why a block is refused. -/
inductive BlockError where
  | emptyData
  | tooLarge (size limit : Nat)
  | header (e : MessageError EncodingError)
  | transaction (e : MessageError EncodingError)
  | txTooLarge (size limit : Nat)
  | tooManyTxs (count limit : Nat)
  | missingHeader
  | headerLength
  | headerTooLarge (size limit : Nat)
  | missingTxCount
  | missingTxLength
  | txLength
  | nilHeader
  deriving DecidableEq

def marshalBlock (b : Block) : Bytes :=
  encodeFields (groupFields
    [ ⟨1, match b.header with
          | none => []
          | some h => encodeBytesField (marshalBlockHeader h)⟩,
      ⟨2, b.transactions.flatMap fun tx => encodeBytesField (marshalTransaction tx)⟩ ])

def maxTxPerBlock : Nat := 10000

def maxTxSizeBytes : Nat := 1024 * 1024

def maxBlockSizeBytes : Nat := 10 * 1024 * 1024

/-- The switch of `UnmarshalBlock`. -/
def blockSwitch (b : Block) : Nat → FieldCase Block BlockError
  | 1 => .bytes "header" (.ok ()) fun d =>
    match unmarshalBlockHeader d with
    | .error e => .error (.header e)
    | .ok h => .ok { b with header := some h }
  | 2 => .bytes "transaction" (.ok ()) fun d =>
    if maxTxSizeBytes < d.length then .error (.txTooLarge d.length maxTxSizeBytes)
    else if maxTxPerBlock < b.transactions.length + 1 then
      .error (.tooManyTxs (b.transactions.length + 1) maxTxPerBlock)
    else
      match unmarshalTransaction d with
      | .error e => .error (.transaction e)
      | .ok tx => .ok { b with transactions := b.transactions ++ [tx] }
  | _ => .unknown

def unmarshalBlock (data : Bytes) : Except (MessageError BlockError) Block :=
  if data.length = 0 then .error (.field .emptyData)
  else if maxBlockSizeBytes < data.length then
    .error (.field (.tooLarge data.length maxBlockSizeBytes))
  else
    match decodeMessage (fun n => n = 2) blockSwitch {} data with
    | .error e => .error e
    | .ok b => if b.header = none then .error (.field .missingHeader) else .ok b

/-! ## Compact blocks -/

/-- A part of a compact block: its length in four bytes, then its bytes. -/
def encodePart (d : Bytes) : Bytes := bigEndian 4 d.length ++ d

def marshalBlockCompact (b : Block) : Except BlockError Bytes :=
  match b.header with
  | none => .error .nilHeader
  | some h =>
    let headerData := marshalBlockHeader h
    let txDataList := b.transactions.map marshalTransaction
    if maxUint32 < headerData.length then .error (.headerTooLarge headerData.length maxUint32)
    else if maxUint32 < b.transactions.length then
      .error (.tooManyTxs b.transactions.length maxUint32)
    else
      match txDataList.find? fun d => maxUint32 < d.length with
      | some d => .error (.txTooLarge d.length maxUint32)
      | none =>
        .ok (encodePart headerData ++ bigEndian 4 b.transactions.length ++
          txDataList.flatMap encodePart)

/-- The loop of `UnmarshalBlockCompact` over the transactions still due. -/
def readTransactions : Nat → Bytes → Except BlockError (List Transaction)
  | 0, _ => .ok []
  | n + 1, data =>
    if data.length < 4 then .error .missingTxLength
    else
      let txLen := ofBigEndian (data.take 4)
      let rest := data.drop 4
      if rest.length < txLen then .error .txLength
      else if maxTxSizeBytes < txLen then .error (.txTooLarge txLen maxTxSizeBytes)
      else
        match unmarshalTransaction (rest.take txLen) with
        | .error e => .error (.transaction e)
        | .ok tx =>
          match readTransactions n (rest.drop txLen) with
          | .error e => .error e
          | .ok txs => .ok (tx :: txs)

/-- `UnmarshalBlockCompact` from the transaction count on. -/
def readCountedTransactions (header : BlockHeader) (data : Bytes) : Except BlockError Block :=
  if data.length < 4 then .error .missingTxCount
  else
    let txCount := ofBigEndian (data.take 4)
    if maxTxPerBlock < txCount then .error (.tooManyTxs txCount maxTxPerBlock)
    else
      match readTransactions txCount (data.drop 4) with
      | .error e => .error e
      | .ok txs => .ok { header := some header, transactions := txs }

def unmarshalBlockCompact (data : Bytes) : Except BlockError Block :=
  if data.length < 8 then .error .emptyData
  else if maxBlockSizeBytes < data.length then .error (.tooLarge data.length maxBlockSizeBytes)
  else
    let headerLen := ofBigEndian (data.take 4)
    let rest := data.drop 4
    if rest.length < headerLen then .error .headerLength
    else if maxTxSizeBytes < headerLen then .error (.headerTooLarge headerLen maxTxSizeBytes)
    else
      match unmarshalBlockHeader (rest.take headerLen) with
      | .error e => .error (.header e)
      | .ok header => readCountedTransactions header (rest.drop headerLen)

end Qau
