import Qau.TxExecutor

/-!
# The transaction validator

Model of `TxValidator` of `txpool/validator.go` as the pool calls it: the
stateless field checks in their order, the cost of a transaction, and the
batch validation against the account state. The signature check
`VerifyTransactionAuthorization` is a parameter of the validator.
-/

namespace Qau.Txpool

structure StateReader where
  getBalance : Address → Int
  getNonce : Address → UInt64

structure TxValidator where
  minGasPrice : Int := 1
  blockGasLimit : UInt64
  chainID : UInt64
  privacyEnabled : Bool := false
  /-- `VerifyTransactionAuthorization`. -/
  verifyAuthorization : Transaction → Option String

def maxTxSize : Nat := 128 * 1024
def minGasLimit : UInt64 := 21000
def crv2CommitHashLen : Nat := 32
def maxGasLimit : UInt64 := 30000000
def maxNonceGap : UInt64 := 64
def maxPendingTxsPerAddress : Nat := 65
def minTxValue : Int := 1000

/-! ## Errors -/

def errInvalidChainID : String := "transaction chain ID does not match node chain ID"
def errNonceTooLow : String := "nonce too low"
def errNonceTooHigh : String := "nonce too high"
def errGasLimitTooLow : String := "gas limit too low"
def errGasPriceTooLow : String := "gas price below minimum"
def errNilGasPrice : String := "nil gas price"
def errTxTooLarge : String := "transaction size too large"
def errNegativeValue : String := "negative value"
def errPrivacyNotEnabled : String := "privacy transactions are not enabled on this node"
def errDust : String := "transfer value too low (dust)"
def errCommitValue : String := "commit transaction must carry Value = 0"
def errCommitTarget : String := "commit transaction must target the zero address"

def errCommitData (got : Nat) : String :=
  s!"commit transaction Data must be exactly {crv2CommitHashLen} bytes (commitHash), got {got}"

/-! ## Field checks -/

/-- `len(v.Bytes())`, 0 for nil. -/
def intLen (v : Option Int) : Nat :=
  match v with
  | none => 0
  | some v => (bitLen v.natAbs + 7) / 8

def txSize (tx : Transaction) : Nat :=
  8 + 1 + 8 + 20 + (if tx.toAddr.isSome then 20 else 0) + intLen tx.value + 8
    + intLen tx.gasPrice + tx.data.length + tx.publicKey.length + tx.signature.length

/-- `intrinsicGasForValidation`: the executor's gas, but only the creation
type pays for a creation. -/
def intrinsicGasForValidation (tx : Transaction) : UInt64 :=
  let t := defaultGasTable
  let gas := tx.data.foldl (fun gas b => gas + t.dataGas b) t.txGas
  if tx.type = TxType.create then gas + t.txCreate else gas

/-- The shape of a commitment transaction. -/
def validateCommit (tx : Transaction) : Option String :=
  if tx.data.length ≠ crv2CommitHashLen then some (errCommitData tx.data.length)
  else if tx.value ≠ some 0 then some errCommitValue
  else if tx.toAddr ≠ some zeroAddress then some errCommitTarget
  else none

namespace TxValidator

def validateBasicFields (v : TxValidator) (tx : Transaction) : Option String :=
  if tx.type = TxType.privacy ∧ v.privacyEnabled = false then some errPrivacyNotEnabled
  else if maxTxSize < txSize tx then some errTxTooLarge
  else if tx.chainID = 0 then some errInvalidChainID
  else if tx.chainID ≠ v.chainID then some errInvalidChainID
  else if tx.value.any (· < 0) then some errNegativeValue
  else if tx.data = [] ∧ tx.value.any (fun x => 0 < x && x < minTxValue) then some errDust
  else if tx.gasLimit < minGasLimit then some errGasLimitTooLow
  else if tx.gasLimit < intrinsicGasForValidation tx then some errIntrinsicGas
  else if maxGasLimit < tx.gasLimit then some errGasLimitTooHigh
  else if v.blockGasLimit < tx.gasLimit then some errGasLimitTooHigh
  else if tx.gasPrice.all (· < v.minGasPrice) then some errGasPriceTooLow
  else if tx.type = TxType.commit then validateCommit tx
  else none

def calculateTxCost (tx : Transaction) : Except String Int :=
  match tx.gasPrice with
  | none => .error errNilGasPrice
  | some price => .ok (clampInt64 tx.gasLimit * price + tx.value.getD 0)

/-- The nonce and balance checks of `BatchValidateWithState`. -/
def validateState (tx : Transaction) (state : StateReader) : Option String :=
  let accountNonce := state.getNonce tx.fromAddr
  if tx.nonce < accountNonce then some errNonceTooLow
  else if accountNonce + maxNonceGap < tx.nonce then some errNonceTooHigh
  else
    match calculateTxCost tx with
    | .error e => some e
    | .ok cost =>
      if state.getBalance tx.fromAddr < cost then some errInsufficientBalance else none

/-- `BatchValidateWithState` for one transaction: no entry of a batch depends
on another. -/
def validateWithState (v : TxValidator) (tx : Transaction) (state : StateReader) :
    Option String :=
  match v.validateBasicFields tx with
  | some e => some e
  | none =>
    if tx.type = TxType.privacy then none
    else
      match validateState tx state with
      | some e => some e
      | none => v.verifyAuthorization tx

end TxValidator

end Qau.Txpool
