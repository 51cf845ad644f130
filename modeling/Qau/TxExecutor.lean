import Qau.WorldState
import Qau.TransactionCodec

/-!
# The serial transaction executor

Model of `TxExecutor.Execute` of `txpool/executor.go`: the admission checks
in their order, the prepayment of the whole gas limit, the dispatch on the
transaction type under a snapshot, the refund of unused gas and the payment
to the coinbase. Contract runs and the privacy and multi-signature
transfers are left to the caller as arbitrary programs over the state; what
they write into the receipt's logs is not kept.
-/

namespace Qau

/-- `Address.String`: the prefix and the base-32 digits of the address. -/
def addressString (a : Address) : String :=
  let alphabet := "ABCDEFGHIJKLMNOPQRSTUVWXYZ234567".toList
  let n := ofBigEndian a.toList
  "QAU" ++ String.ofList ((List.range 32).map fun i => alphabet.getD (n / 32 ^ (31 - i) % 32) 'A')

/-- The staking contract, 0x…1001. -/
def stakingAddr : Address := copyInto 20 (List.replicate 18 0 ++ [0x10, 0x01])

def zeroAddress : Address := zeroArr 20

namespace Txpool

open StateProgram

/-- The block-level data `Execute` reads. -/
structure BlockContext where
  blockHash : Hash := zeroArr 32
  blockNumber : UInt64 := 0
  coinbase : Address := zeroArr 20
  gasLimit : UInt64 := 0
  baseFee : Option Int := none

structure Receipt where
  txHash : Hash
  blockHash : Hash := zeroArr 32
  blockNumber : UInt64 := 0
  status : UInt64 := 0
  gasUsed : UInt64 := 0
  error : String := ""
  deriving DecidableEq

/-- The gas and the error an execution function returns. -/
abbrev ExecResult := UInt64 × Option String

/-- The executor: which verifiers are configured and required, and the
transaction kinds that run outside this model. -/
structure TxExecutor where
  privacyTxVerifier : Bool := false
  requirePrivacyVerification : Bool := true
  multisigLookup : Bool := false
  requireMultisigVerification : Bool := true
  /-- `CallWithRollback` on an address that has code. -/
  callContract : Transaction → BlockContext → Int → StateProgram ExecResult
  executeContractCreate : Transaction → BlockContext → Int → StateProgram ExecResult
  executePrivacyTransfer : Transaction → StateProgram ExecResult
  executeMultiSigTransfer : Transaction → StateProgram ExecResult

/-! ## Errors -/

def errIntrinsicGas : String := "intrinsic gas too low"
def errGasLimitOverflow : String := "gas limit exceeds maximum allowed"
def errGasLimitTooHigh : String := "gas limit exceeds block gas limit"
def errNilBlockContext : String := "nil block context"
def errInsufficientBalance : String := "insufficient balance for transfer"
def errPrivacyDisabled : String :=
  "privacy transactions not enabled: no verifier configured (fail-closed)"
def errMultisigDisabled : String :=
  "multisig transactions not enabled: no wallet lookup configured (fail-closed)"
def errMaxFeeTooLow : String := "max fee per gas too low"

def errInvalidNonce (got expected : UInt64) : String :=
  s!"invalid nonce: got {got}, expected {expected}"

def errStakeTarget (got : Address) : String :=
  s!"stake tx To must be system staking contract (0x…1001), got {addressString got}"

/-! ## Gas -/

structure GasTable where
  txGas : UInt64
  txDataZero : UInt64
  txDataNonZero : UInt64
  txCreate : UInt64

/-- `DefaultGasTable`, the table of every executor the package builds. -/
def defaultGasTable : GasTable := ⟨21000, 4, 16, 32000⟩

def GasTable.dataGas (t : GasTable) (b : UInt8) : UInt64 :=
  if b = 0 then t.txDataZero else t.txDataNonZero

/-- `intrinsicGas`, in wrapping `uint64` arithmetic. -/
def intrinsicGas (tx : Transaction) : UInt64 :=
  let t := defaultGasTable
  let gas := tx.data.foldl (fun gas b => gas + t.dataGas b) t.txGas
  if tx.type = TxType.create ∨ (tx.type = TxType.dynamicFee ∧ tx.toAddr = none) then
    gas + t.txCreate
  else gas

/-- A `uint64` turned into an `int64` without overflow. -/
def clampInt64 (n : UInt64) : Int := if 2 ^ 63 - 1 < n.toNat then 2 ^ 63 - 1 else n.toNat

/-- `effectiveGasPrice`, `none` if the fee cap is below the base fee. -/
def effectiveGasPrice (baseFee : Int) (maxFeePerGas maxPriorityFeePerGas : Option Int) :
    Option Int :=
  match maxFeePerGas with
  | none => none
  | some maxFee =>
    if maxFee < baseFee then none
    else
      let total := baseFee + maxPriorityFeePerGas.getD 0
      if maxFee < total then some maxFee else some total

/-- The base fee that applies to a transaction: a positive one, under the
dynamic-fee type. -/
def burntBaseFee (tx : Transaction) (ctx : BlockContext) : Option Int :=
  if tx.type = TxType.dynamicFee then ctx.baseFee.filter (0 < ·) else none

/-- The price per gas, `none` if the fee cap is too low. -/
def gasPrice (tx : Transaction) (ctx : BlockContext) : Option Int :=
  match burntBaseFee tx ctx with
  | some baseFee => effectiveGasPrice baseFee tx.maxFeePerGas tx.maxPriorityFeePerGas
  | none => some (tx.gasPrice.getD 0)

/-! ## Execution by type -/

def executeTransfer (tx : Transaction) : StateProgram ExecResult :=
  match tx.toAddr with
  | none => return (0, some "transfer requires recipient")
  | some dst =>
    if dst = zeroAddress then return (0, some "cannot transfer value to zero address")
    else
      match tx.value with
      | none => return (0, none)
      | some value =>
        if value = 0 then return (0, none)
        else do
          let balance ← getBalance tx.fromAddr
          if balance < value then return (0, some errInsufficientBalance)
          else
            setBalance tx.fromAddr (balance - value)
            let toBalance ← getBalance dst
            setBalance dst (toBalance + value)
            return (0, none)

def executeStake (tx : Transaction) : StateProgram ExecResult :=
  match tx.value with
  | none => return (0, some "stake requires positive value")
  | some value =>
    if value ≤ 0 then return (0, some "stake requires positive value")
    else do
      let balance ← getBalance tx.fromAddr
      if balance < value then return (0, some errInsufficientBalance)
      else
        match tx.toAddr.filter (· ≠ stakingAddr) with
        | some dst => return (0, some (errStakeTarget dst))
        | none => do
          setBalance tx.fromAddr (balance - value)
          let stakingBalance ← getBalance stakingAddr
          setBalance stakingAddr (stakingBalance + value)
          return (0, none)

/-- The stake itself is released by the consensus layer. -/
def executeUnstake (tx : Transaction) : StateProgram ExecResult :=
  if tx.value.any (· < 0) then return (0, some "unstake value cannot be negative")
  else return (0, none)

namespace TxExecutor

/-- A call of an address without code is a transfer. -/
def executeContractCall (e : TxExecutor) (tx : Transaction) (ctx : BlockContext) (price : Int) :
    StateProgram ExecResult :=
  match tx.toAddr with
  | none => return (0, some "contract call requires recipient")
  | some dst => do
    let code ← getCode dst
    if code = [] then executeTransfer tx else e.callContract tx ctx price

/-- The switch of `Execute`. -/
def dispatch (e : TxExecutor) (tx : Transaction) (ctx : BlockContext) (price : Int) :
    StateProgram ExecResult :=
  if tx.type = TxType.transfer then executeTransfer tx
  else if tx.type = TxType.contract then e.executeContractCall tx ctx price
  else if tx.type = TxType.create then e.executeContractCreate tx ctx price
  else if tx.type = TxType.privacy then e.executePrivacyTransfer tx
  else if tx.type = TxType.multiSig then e.executeMultiSigTransfer tx
  else if tx.type = TxType.stake then executeStake tx
  else if tx.type = TxType.unstake then executeUnstake tx
  else if tx.type = TxType.dynamicFee then
    if tx.toAddr = none then e.executeContractCreate tx ctx price
    else e.executeContractCall tx ctx price
  else if tx.type = TxType.commit then return (0, none)
  else if tx.type = TxType.blob then return (0, some "blob transactions are not supported")
  else return (0, some s!"unsupported transaction type: {tx.type}")

/-! ## `Execute` -/

/-- The checks that read no state, and the price per gas they settle. -/
def precheck (e : TxExecutor) (tx : Transaction) (ctx : BlockContext) : Except String Int :=
  if tx.gasLimit < intrinsicGas tx then .error errIntrinsicGas
  else if 30000000 < tx.gasLimit then .error errGasLimitOverflow
  else if 0 < ctx.gasLimit ∧ ctx.gasLimit < tx.gasLimit then .error errGasLimitTooHigh
  else if tx.type = TxType.privacy ∧ !e.privacyTxVerifier ∧ e.requirePrivacyVerification then
    .error errPrivacyDisabled
  else if tx.type = TxType.multiSig ∧ !e.multisigLookup ∧ e.requireMultisigVerification then
    .error errMultisigDisabled
  else
    match gasPrice tx ctx with
    | none => .error errMaxFeeTooLow
    | some price => .ok price

/-- What the coinbase receives for the gas used. -/
def coinbaseFee (tx : Transaction) (ctx : BlockContext) (price : Int) (gasUsed : UInt64) : Int :=
  match burntBaseFee tx ctx with
  | some baseFee => max (gasUsed.toNat * price - gasUsed.toNat * baseFee) 0
  | none => gasUsed.toNat * price

def revertIf (failed : Bool) (snapshot : Nat) : StateProgram Unit :=
  if failed then revertToSnapshot snapshot else return ()

def refundGas (tx : Transaction) (price : Int) (gasUsed : UInt64) : StateProgram Unit :=
  let unusedGas := tx.gasLimit - gasUsed
  if 0 < unusedGas then do
    let balance ← getBalance tx.fromAddr
    setBalance tx.fromAddr (balance + clampInt64 unusedGas * price)
  else return ()

def payCoinbase (tx : Transaction) (ctx : BlockContext) (price : Int) (gasUsed : UInt64) :
    StateProgram Unit :=
  let priorityFee := coinbaseFee tx ctx price gasUsed
  if ctx.coinbase ≠ zeroAddress ∧ 0 < gasUsed ∧ 0 < priorityFee then do
    let coinbaseBalance ← getBalance ctx.coinbase
    setBalance ctx.coinbase (coinbaseBalance + priorityFee)
  else return ()

/-- The receipt before anything ran. -/
def blankReceipt (sha3 : Bytes → Hash) (tx : Transaction) (ctx : BlockContext) : Receipt :=
  { txHash := txHash sha3 tx, blockHash := ctx.blockHash, blockNumber := ctx.blockNumber }

/-- The gas charged: what ran and the intrinsic gas, at most the limit. -/
def cappedGas (tx : Transaction) (gas : UInt64) : UInt64 :=
  let gasUsed := gas + intrinsicGas tx
  if tx.gasLimit < gasUsed then tx.gasLimit else gasUsed

/-- From the prepayment on. -/
def prepaid (sha3 : Bytes → Hash) (e : TxExecutor) (tx : Transaction) (ctx : BlockContext)
    (price : Int) : StateProgram Receipt := do
  let receipt := blankReceipt sha3 tx ctx
  let gasCost := clampInt64 tx.gasLimit * price
  let balance ← getBalance tx.fromAddr
  if balance < gasCost then return { receipt with error := errInsufficientBalance }
  else
    setBalance tx.fromAddr (balance - gasCost)
    incrementNonce tx.fromAddr
    -- taken after the prepayment, so that a revert keeps it
    let snapshot ← takeSnapshot
    let result ← e.dispatch tx ctx price
    let gasUsed := cappedGas tx result.1
    revertIf result.2.isSome snapshot
    refundGas tx price gasUsed
    payCoinbase tx ctx price gasUsed
    releaseSnapshot snapshot
    return { receipt with
             gasUsed := gasUsed,
             status := if result.2.isSome then 0 else 1,
             error := result.2.getD "" }

/-- The checks in front of the prepayment. A privacy transaction has no nonce
to check. -/
def checked (sha3 : Bytes → Hash) (e : TxExecutor) (tx : Transaction) (ctx : BlockContext) :
    StateProgram Receipt :=
  match e.precheck tx ctx with
  | .error msg => return { blankReceipt sha3 tx ctx with error := msg }
  | .ok price =>
    if tx.type = TxType.privacy then e.prepaid sha3 tx ctx price
    else do
      let currentNonce ← getNonce tx.fromAddr
      if tx.nonce ≠ currentNonce then
        return { blankReceipt sha3 tx ctx with error := errInvalidNonce tx.nonce currentNonce }
      else e.prepaid sha3 tx ctx price

/-- `Execute`. What an earlier transaction left behind is cleared before any
check is made. -/
def execute (sha3 : Bytes → Hash) (e : TxExecutor) (tx : Transaction) :
    Option BlockContext → StateProgram Receipt
  | none => return { txHash := txHash sha3 tx, error := errNilBlockContext }
  | some ctx => do
    clearTxState
    e.checked sha3 tx ctx

end TxExecutor

end Txpool

end Qau
