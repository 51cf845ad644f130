import Qau.Account
import Qau.CallGas
import Qau.QvmOpcode

/-!
# The frames of a transaction

What a frame of the interpreter inherits from the frame that opened it
(`qvm/call.go`, `operations_missing.go`, `opcodes_extended.go`), the words its
context opcodes push, and the addresses other opcodes read from such words.

`opCall` and the other four build the child's context without `BlockHashes` and
`BlobHashes`, and `Execute` takes the table of `BLOCKHASH` from that context;
`opCreateGeneric` hands the table over but not the blob hashes. Addresses stand
at the right end of a word, except that `AddressToWord`, with which the creation
opcodes push theirs, puts them at the left end.
-/

namespace Qau.Qvm

/-! ## Words -/

abbrev Word := ByteArr 32

def newWord (data : Bytes) : Word :=
  copyInto 32 (List.replicate (32 - data.length) 0 ++ data.drop (data.length - 32))

def newWordFromUint64 (v : UInt64) : Word := newWord (bigEndian 8 v.toNat)

/-- `NewWordFromBigInt`; `Bytes` drops the sign. -/
def newWordFromBigInt (v : Option Int) : Word := newWord (bigEndian 32 (v.getD 0).natAbs)

/-- `ToUint64`: the low 64 bits. -/
def Word.toUint64 (w : Word) : UInt64 := .ofNat (ofBigEndian w.toList)

def addressToWord (addr : Address) : Word := copyInto 32 addr.toList

/-- `copy(addr[:], word[12:])`. -/
def Word.address (w : Word) : Address := copyInto 20 (w.toList.drop 12)

theorem newWord_hash (h : Hash) : newWord h.toList = h := by
  simp [newWord]

theorem toList_newWord {data : Bytes} (h : data.length ≤ 32) :
    (newWord data).toList = List.replicate (32 - data.length) 0 ++ data := by
  rw [newWord, Nat.sub_eq_zero_of_le h,
    copyInto_toList_of_length_le (by simp; omega)]
  simp [Nat.sub_add_cancel h]

theorem toUint64_newWordFromUint64 (v : UInt64) : (newWordFromUint64 v).toUint64 = v := by
  have hzero : (List.replicate 24 (0 : UInt8)).foldl (fun acc x => acc * 256 + x.toNat) 0 = 0 := rfl
  rw [newWordFromUint64, Word.toUint64, toList_newWord (by simp), bigEndian_length, ofBigEndian,
    List.foldl_append]
  change UInt64.ofNat (ofBigEndian (bigEndian 8 v.toNat)) = v
  rw [ofBigEndian_bigEndian_of_lt v.toNat_lt, UInt64.ofNat_toNat]

/-! ## Frames -/

/-- `ExecutionContext` without `SkipValidation`, `AbortCh` and `ParentEnv`,
which none of these opcodes reads. -/
structure ExecutionContext where
  origin : Address
  gasPrice : Option Int
  caller : Address
  address : Address
  value : Option Int
  blockNumber : UInt64
  timestamp : Int64
  coinbase : Address
  gasLimit : UInt64
  chainID : UInt64
  blockHashes : Fmap UInt64 Hash := ∅
  prevRandao : Hash
  blobHashes : List Hash := []
  blobBaseFee : UInt64
  baseFee : UInt64
  code : Bytes
  input : Bytes
  originalCode : Bytes := []
  evmCompatible : Bool
  gas : UInt64
  depth : Nat
  readOnly : Bool
deriving Inhabited

/-- The fields of `Environment` that a child or a context opcode reads. Between
two opcodes `callDepth` is `ctx.depth`, so it is left out. -/
structure Environment where
  ctx : ExecutionContext
  blockHashes : Fmap UInt64 Hash

/-- The frame that `Interpreter.Execute` opens. -/
def ExecutionContext.frame (ctx : ExecutionContext) : Environment := ⟨ctx, ctx.blockHashes⟩

/-- What an opcode brings to the frame it opens: operands, the code found or
translated, and for `AUTHCALL` the address that `AUTH` has set. -/
structure Operands where
  addr : Address
  value : Option Int
  code : Bytes
  input : Bytes
  evmCompatible : Bool
  gas : UInt64
  authorizedAddress : Option Address := none
deriving Inhabited

inductive FrameOp where
  | call (op : CallOp) | create
deriving DecidableEq

namespace Environment

/-- The part that all child contexts share. -/
def childContext (env : Environment) (o : Operands) (caller address : Address)
    (value : Option Int) (readOnly : Bool) : ExecutionContext where
  origin := env.ctx.origin
  gasPrice := env.ctx.gasPrice
  caller := caller
  address := address
  value := value
  blockNumber := env.ctx.blockNumber
  timestamp := env.ctx.timestamp
  coinbase := env.ctx.coinbase
  gasLimit := env.ctx.gasLimit
  chainID := env.ctx.chainID
  baseFee := env.ctx.baseFee
  blobBaseFee := env.ctx.blobBaseFee
  prevRandao := env.ctx.prevRandao
  code := o.code
  input := o.input
  gas := o.gas
  depth := env.ctx.depth + 1
  readOnly := readOnly
  evmCompatible := o.evmCompatible

/-- `callCtx` of the five call opcodes. -/
def callCtx (env : Environment) (o : Operands) : CallOp → ExecutionContext
  | .call => env.childContext o env.ctx.address o.addr o.value env.ctx.readOnly
  | .callCode => env.childContext o env.ctx.address env.ctx.address o.value env.ctx.readOnly
  | .delegateCall =>
    env.childContext o env.ctx.caller env.ctx.address env.ctx.value env.ctx.readOnly
  | .staticCall => env.childContext o env.ctx.address o.addr (some 0) true
  | .authCall =>
    env.childContext o (o.authorizedAddress.getD env.ctx.address) o.addr o.value env.ctx.readOnly

/-- `initCtx` of `opCreateGeneric`. -/
def initCtx (env : Environment) (o : Operands) : ExecutionContext :=
  { env.childContext o env.ctx.address o.addr o.value false with originalCode := o.input }

/-- The frame an opcode opens. -/
def child (env : Environment) : FrameOp × Operands → Environment
  | (.call op, o) => (env.callCtx o op).frame
  | (.create, o) => ⟨env.initCtx o, env.blockHashes⟩

/-- `getBlockHash`, which `opBlockHash` calls after making its range check once
more. -/
def getBlockHash (env : Environment) (blockNum : UInt64) : Hash :=
  if env.ctx.blockNumber ≤ blockNum ∨ 256 < env.ctx.blockNumber - blockNum then zeroArr 32
  else env.blockHashes[blockNum]?.getD (zeroArr 32)

/-- The word a context opcode pushes, given the word on top of the stack. -/
def contextWord (env : Environment) (top : Word) : OpCode → Option Word
  | .ORIGIN => some (newWord env.ctx.origin.toList)
  | .COINBASE => some (newWord env.ctx.coinbase.toList)
  | .GASPRICE => some (newWordFromBigInt env.ctx.gasPrice)
  | .GASLIMIT => some (newWordFromUint64 env.ctx.gasLimit)
  | .TIMESTAMP => some (newWordFromUint64 env.ctx.timestamp.toUInt64)
  | .NUMBER => some (newWordFromUint64 env.ctx.blockNumber)
  | .CHAINID => some (newWordFromUint64 env.ctx.chainID)
  | .BASEFEE => some (newWordFromUint64 env.ctx.baseFee)
  | .BLOBBASEFEE => some (newWordFromUint64 env.ctx.blobBaseFee)
  | .PREVRANDAO => some (newWord env.ctx.prevRandao.toList)
  | .BLOCKHASH => some (newWord (env.getBlockHash top.toUint64).toList)
  | .BLOBHASH =>
    match env.ctx.blobHashes[top.toUint64.toNat]? with
    | none => some (newWordFromUint64 0)
    | some hash => some (newWord hash.toList)
  | _ => none

end Environment

/-- The opcodes that read the block and the transaction. -/
def blockOps : List OpCode :=
  [.BLOCKHASH, .BLOBHASH, .COINBASE, .TIMESTAMP, .NUMBER, .PREVRANDAO, .GASLIMIT, .CHAINID,
    .BASEFEE, .BLOBBASEFEE, .ORIGIN, .GASPRICE]

/-- No block that `BLOCKHASH` reaches has a hash other than zero in the table. -/
def ExecutionContext.NoBlockHash (ctx : ExecutionContext) : Prop :=
  ∀ n < ctx.blockNumber, ctx.blockNumber - n ≤ 256 → ctx.blockHashes[n]?.getD (zeroArr 32) = zeroArr 32

/-- No blob hash other than zero can be addressed. -/
def ExecutionContext.NoBlobHash (ctx : ExecutionContext) : Prop :=
  ∀ i : UInt64, ctx.blobHashes[i.toNat]?.getD (zeroArr 32) = zeroArr 32

section
variable (env : Environment) (top : Word)

theorem contextWord_blockHash :
    env.contextWord top .BLOCKHASH = some (env.getBlockHash top.toUint64) := by
  rw [Environment.contextWord, newWord_hash]

theorem contextWord_blobHash : env.contextWord top .BLOBHASH =
    some (env.ctx.blobHashes[top.toUint64.toNat]?.getD (zeroArr 32)) := by
  rw [Environment.contextWord]
  cases env.ctx.blobHashes[top.toUint64.toNat]? with
  | none => rfl
  | some hash => exact congrArg some (newWord_hash hash)

theorem contextWord_child {op : OpCode} (hop : op ∈ blockOps) (hblock : op ≠ .BLOCKHASH)
    (hblob : op ≠ .BLOBHASH) (p : FrameOp × Operands) :
    (env.child p).contextWord top op = env.contextWord top op := by
  simp only [blockOps, List.mem_cons, List.not_mem_nil, or_false, hblock, hblob, false_or] at hop
  obtain ⟨kind | _, o⟩ := p
  · cases kind <;> rcases hop with rfl | rfl | rfl | rfl | rfl | rfl | rfl | rfl | rfl | rfl <;> rfl
  · rcases hop with rfl | rfl | rfl | rfl | rfl | rfl | rfl | rfl | rfl | rfl <;> rfl

theorem blobHashes_child (p : FrameOp × Operands) : (env.child p).ctx.blobHashes = [] := by
  obtain ⟨kind | _, o⟩ := p
  · cases kind <;> rfl
  · rfl

theorem getBlockHash_child (p : FrameOp × Operands) (n : UInt64) :
    (env.child p).getBlockHash n = if p.1 = .create then env.getBlockHash n else zeroArr 32 := by
  obtain ⟨kind | _, o⟩ := p
  · have hempty : (env.child (.call kind, o)).blockHashes = ∅ := by cases kind <;> rfl
    simp [Environment.getBlockHash, hempty]
  · rfl

theorem getBlockHash_descend (path : List (FrameOp × Operands)) (n : UInt64) :
    (path.foldl Environment.child env).getBlockHash n =
      if ∀ p ∈ path, p.1 = .create then env.getBlockHash n else zeroArr 32 := by
  induction path using List.reverseRecOn with
  | nil => simp
  | append_singleton path p ih =>
    rw [List.foldl_concat, getBlockHash_child, ih, ← ite_and]
    exact if_congr (by rw [List.forall_mem_append, List.forall_mem_singleton, and_comm]) rfl rfl

end

theorem noBlockHash_iff (ctx : ExecutionContext) :
    ctx.NoBlockHash ↔ ∀ n, ctx.frame.getBlockHash n = zeroArr 32 := by
  refine forall_congr' fun n => ?_
  unfold Environment.getBlockHash
  split_ifs with h
  · simp only [iff_true]
    intro hlt hle
    exact absurd h (not_or.mpr ⟨UInt64.not_le.mpr hlt, UInt64.not_lt.mpr hle⟩)
  · obtain ⟨hlt, hle⟩ := not_or.mp h
    exact ⟨fun hall => hall (UInt64.not_le.mp hlt) (UInt64.not_lt.mp hle), fun h _ _ => h⟩

/-- A frame sees the block as the top frame does exactly when there is nothing
to lose on the way to it. -/
theorem block_context_iff (ctx : ExecutionContext) (path : List (FrameOp × Operands)) :
    (∀ op ∈ blockOps, ∀ top, (path.foldl Environment.child ctx.frame).contextWord top op =
        ctx.frame.contextWord top op) ↔
      path = [] ∨ ctx.NoBlobHash ∧ (ctx.NoBlockHash ∨ ∀ p ∈ path, p.1 = .create) := by
  rcases List.eq_nil_or_concat' path with rfl | ⟨front, last, rfl⟩
  · simp
  have hblobs : ((front ++ [last]).foldl Environment.child ctx.frame).ctx.blobHashes = [] := by
    rw [List.foldl_concat, blobHashes_child]
  simp only [List.append_eq_nil_iff, List.cons_ne_nil, and_false, false_or]
  constructor
  · intro hsame
    refine ⟨fun i => ?_, or_iff_not_imp_right.mpr fun hcall => (noBlockHash_iff ctx).mpr fun n => ?_⟩
    · have hi := hsame .BLOBHASH (by decide) (newWordFromUint64 i)
      rw [contextWord_blobHash, contextWord_blobHash, hblobs, toUint64_newWordFromUint64] at hi
      exact (Option.some.inj hi).symm
    · have hn := hsame .BLOCKHASH (by decide) (newWordFromUint64 n)
      rw [contextWord_blockHash, contextWord_blockHash, toUint64_newWordFromUint64,
        getBlockHash_descend, if_neg hcall] at hn
      exact (Option.some.inj hn).symm
  · rintro ⟨hblob, hblock⟩ op hop top
    by_cases hB : op = .BLOCKHASH
    · subst hB
      rw [contextWord_blockHash, contextWord_blockHash, getBlockHash_descend]
      split_ifs with hall
      · rfl
      · rw [(noBlockHash_iff ctx).mp (hblock.resolve_right hall)]
    · by_cases hb : op = .BLOBHASH
      · subst hb
        rw [contextWord_blobHash, contextWord_blobHash, hblobs]
        exact congrArg some (hblob _).symm
      · induction front ++ [last] using List.reverseRecOn with
        | nil => rfl
        | append_singleton path p ih =>
          rw [List.foldl_concat, contextWord_child _ _ hop hB hb, ih]

/-- In block 1, whose parent has a hash. -/
def blockOne : ExecutionContext :=
  { (default : ExecutionContext) with
    blockNumber := 1, coinbase := copyInto 20 [1], blockHashes := (∅ : Fmap UInt64 Hash).insert 0 (copyInto 32 [1]) }

theorem block_context_call : ¬ ∀ op ∈ blockOps, ∀ top,
    (blockOne.frame.child (.call .call, default)).contextWord top op =
      blockOne.frame.contextWord top op := by
  intro h
  exact absurd (h .BLOCKHASH (by decide) (newWordFromUint64 0)) (by decide +kernel)

/-! ## Address words -/

/-- The address an opcode pushes and the word it pushes for it; the creation
opcodes push that of the new contract. -/
def Environment.pushedAddress (env : Environment) (contractAddr : Address) :
    OpCode → Option (Address × Word)
  | .ADDRESS => some (env.ctx.address, copyInto 32 (List.replicate 12 0 ++ env.ctx.address.toList))
  | .CALLER => some (env.ctx.caller, copyInto 32 (List.replicate 12 0 ++ env.ctx.caller.toList))
  | .ORIGIN => some (env.ctx.origin, newWord env.ctx.origin.toList)
  | .COINBASE => some (env.ctx.coinbase, newWord env.ctx.coinbase.toList)
  | .CREATE | .CREATE2 => some (contractAddr, addressToWord contractAddr)
  | _ => none

/-- Where the address stands among the operands, from the top of the stack. -/
def addressOperand (evmCompatible : Bool) : OpCode → Option Nat
  | .BALANCE | .EXTCODESIZE | .EXTCODECOPY | .EXTCODEHASH | .SELFDESTRUCT => some 0
  | .CALL | .CALLCODE | .AUTHCALL => some (if evmCompatible then 1 else 5)
  | .DELEGATECALL | .STATICCALL => some (if evmCompatible then 1 else 4)
  | _ => none

/-- The address an opcode takes from the stack. -/
def poppedAddress (evmCompatible : Bool) (stack : List Word) (op : OpCode) : Option Address := do
  let i ← addressOperand evmCompatible op
  let word ← stack[i]?
  return word.address

theorem address_right (addr : Address) :
    Word.address (copyInto 32 (List.replicate 12 0 ++ addr.toList)) = addr := by
  rw [Word.address, copyInto_toList_of_length_le (by simp)]
  simp

theorem address_newWord (addr : Address) : (newWord addr.toList).address = addr := by
  rw [Word.address, toList_newWord (by simp)]
  simp

theorem toList_address_addressToWord (addr : Address) :
    (addressToWord addr).address.toList = addr.toList.drop 12 ++ List.replicate 12 0 := by
  have hlen : addr.toList.length = 20 := addr.toList_length
  have hword : (addressToWord addr).toList = addr.toList ++ List.replicate 12 0 := by
    rw [addressToWord, copyInto_toList_of_length_le (by omega), hlen]
  rw [Word.address, hword, List.drop_append_of_le_length (by omega),
    copyInto_toList_of_le_length (by simp)]
  exact List.take_of_length_le (by simp)

/-- The eight bytes that are read are in the place of the first eight, and
twelve zeros in the place of the others. -/
theorem address_addressToWord (addr : Address) :
    (addressToWord addr).address = addr ↔ addr = zeroArr 20 := by
  refine ⟨fun h => ?_, by rintro rfl; decide⟩
  have hlist := toList_address_addressToWord addr
  rw [h] at hlist
  have htail : addr.toList.drop 12 = List.replicate 8 0 := by
    conv_lhs => rw [hlist]
    simp [List.drop_append]
  rw [htail] at hlist
  exact List.Vector.eq _ _ hlist

/-- A pushed address word denotes its address exactly when it does not come from
a creation, or the address is zero. -/
theorem address_round_trip_iff (env : Environment) (contractAddr : Address) {p c : OpCode}
    {addr : Address} {word : Word} (hpush : env.pushedAddress contractAddr p = some (addr, word))
    {evmCompatible : Bool} {i : Nat} (hop : addressOperand evmCompatible c = some i)
    {stack : List Word} (hstack : stack[i]? = some word) :
    poppedAddress evmCompatible stack c = some addr ↔
      p ≠ .CREATE ∧ p ≠ .CREATE2 ∨ addr = zeroArr 20 := by
  have hpop : poppedAddress evmCompatible stack c = some word.address := by
    simp [poppedAddress, hop, hstack]
  rw [hpop, Option.some_inj]
  unfold Environment.pushedAddress at hpush
  split at hpush <;> cases hpush
  · exact iff_of_true (address_right _) (.inl (by decide))
  · exact iff_of_true (address_right _) (.inl (by decide))
  · exact iff_of_true (address_newWord _) (.inl (by decide))
  · exact iff_of_true (address_newWord _) (.inl (by decide))
  · simp [address_addressToWord]
  · simp [address_addressToWord]

theorem address_round_trip_balance : blockOne.coinbase ≠ zeroArr 20 ∧ poppedAddress false
    [newWord blockOne.coinbase.toList] .BALANCE = some blockOne.coinbase :=
  ⟨by decide,
    (address_round_trip_iff blockOne.frame (zeroArr 20) (p := .COINBASE) rfl (by rfl) rfl).mpr
      (.inl (by decide))⟩

theorem address_round_trip_create : ∃ addr : Address,
    blockOne.frame.pushedAddress addr .CREATE = some (addr, addressToWord addr) ∧
      poppedAddress true [zeroArr 32, addressToWord addr] .CALL ≠ some addr :=
  ⟨copyInto 20 [1], rfl, by decide⟩

end Qau.Qvm
