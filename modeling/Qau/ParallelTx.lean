import Qau.TxOutcome

/-!
# The parallel executor's transaction

Model of `ParallelExecutor.executeTransaction` of `qvm/parallel/executor.go`.
It is a second implementation of the rules of `TxExecutor.Execute`: its
intrinsic gas saturates, a nil gas price makes it panic (`none`), a failed
transaction gets no refund, and nobody is paid for the gas. Contract runs
and the privacy and multi-signature transfers are arbitrary programs.
-/

namespace Qau.Parallel

open StateProgram
open Txpool (ExecResult)

structure Receipt where
  txHash : Hash
  txIndex : Nat
  status : UInt64 := 0
  gasUsed : UInt64 := 0
  error : String := ""
  deriving DecidableEq

/-- The transaction kinds that run outside this model. -/
structure ParallelExecutor where
  executeContractCall : Transaction → StateProgram ExecResult
  executeContractCreate : Transaction → StateProgram ExecResult
  executePrivacyTransfer : Transaction → StateProgram ExecResult
  executeMultiSigTransfer : Transaction → StateProgram ExecResult

/-! ## Gas -/

def maxUint64 : UInt64 := 0xffffffffffffffff

/-- One step of the sum, `none` when it would overflow. -/
def addGas (gas cost : UInt64) : Option UInt64 :=
  if maxUint64 - cost < gas then none else some (gas + cost)

/-- `intrinsicGas`, which saturates. -/
def intrinsicGas (tx : Transaction) : UInt64 :=
  let gas := do
    let gas ← tx.data.foldlM (fun gas b => addGas gas (if b = 0 then 4 else 16)) 21000
    if tx.type = TxType.create then addGas gas 32000 else some gas
  gas.getD maxUint64

def cappedGas (tx : Transaction) (gas : UInt64) : UInt64 :=
  let gasUsed := gas + intrinsicGas tx
  if tx.gasLimit < gasUsed then tx.gasLimit else gasUsed

/-! ## Execution by type -/

def executeTransfer (tx : Transaction) : StateProgram ExecResult :=
  match tx.toAddr with
  | none => return (0, some "transfer requires recipient")
  | some dst =>
    match tx.value with
    | none => return (0, none)
    | some value =>
      if value = 0 then return (0, none)
      else do
        let balance ← getBalance tx.fromAddr
        if balance < value then return (0, some "insufficient balance")
        else
          setBalance tx.fromAddr (balance - value)
          let toBalance ← getBalance dst
          setBalance dst (toBalance + value)
          return (0, none)

def executeStake (tx : Transaction) : StateProgram ExecResult :=
  match tx.value with
  | none => return (0, some "stake requires positive value")
  | some value =>
    if value ≤ 0 then return (0, some "stake requires positive value")
    else
      match tx.toAddr with
      | none =>
        return (0, some "stake tx requires non-nil tx.To equal to canonical staking contract")
      | some dst =>
        if dst ≠ stakingAddr then
          return (0, some "stake tx.To must equal canonical staking contract 0x…1001")
        else do
          let balance ← getBalance tx.fromAddr
          if balance < value then return (0, some "insufficient balance for stake")
          else
            setBalance tx.fromAddr (balance - value)
            let stakingBalance ← getBalance stakingAddr
            setBalance stakingAddr (stakingBalance + value)
            return (0, none)

def executeUnstake (tx : Transaction) : StateProgram ExecResult :=
  if tx.value.any (· < 0) then return (0, some "unstake value cannot be negative")
  else return (0, none)

namespace ParallelExecutor

/-- The switch of `executeTransaction`; an unlisted type does nothing and
succeeds. -/
def dispatch (pe : ParallelExecutor) (tx : Transaction) : StateProgram ExecResult :=
  if tx.type = TxType.transfer then executeTransfer tx
  else if tx.type = TxType.contract then pe.executeContractCall tx
  else if tx.type = TxType.create then pe.executeContractCreate tx
  else if tx.type = TxType.privacy then pe.executePrivacyTransfer tx
  else if tx.type = TxType.multiSig then pe.executeMultiSigTransfer tx
  else if tx.type = TxType.stake then executeStake tx
  else if tx.type = TxType.unstake then executeUnstake tx
  else return (0, none)

/-- On failure a multi-version wrapper drops its writes and repeats the
prepayment and the nonce; a plain state is left as it is. -/
def rollback (tx : Transaction) (failed : Bool) (balance : Int) (nonce : UInt64) :
    StateProgram Unit :=
  if failed then do
    let wrapped ← isTracked
    if wrapped then do
      deleteVersion
      setBalance tx.fromAddr balance
      setNonce tx.fromAddr nonce
    else return ()
  else return ()

/-- Unused gas is given back after a success only. -/
def refundGas (tx : Transaction) (price : Int) (failed : Bool) (gasUsed : UInt64) :
    StateProgram Unit :=
  let unusedGas := tx.gasLimit - gasUsed
  if !failed ∧ 0 < unusedGas then do
    let balance ← getBalance tx.fromAddr
    setBalance tx.fromAddr (balance + unusedGas.toNat * price)
  else return ()

def executeTransaction (sha3 : Bytes → Hash) (pe : ParallelExecutor) (txIdx : Nat)
    (tx : Transaction) : StateProgram (Option Receipt) :=
  let receipt : Receipt := { txHash := txHash sha3 tx, txIndex := txIdx }
  if tx.gasLimit < intrinsicGas tx then
    return some { receipt with error := "intrinsic gas too low", gasUsed := tx.gasLimit }
  else
    match tx.gasPrice with
    | none => return none
    | some price => do
      let gasCost := tx.gasLimit.toNat * price
      let initialBalance ← getBalance tx.fromAddr
      if initialBalance < gasCost then
        return some
          { receipt with error := "insufficient balance for gas", gasUsed := tx.gasLimit }
      else
        setBalance tx.fromAddr (initialBalance - gasCost)
        let initialNonce ← getNonce tx.fromAddr
        setNonce tx.fromAddr (initialNonce + 1)
        let result ← pe.dispatch tx
        let gasUsed := cappedGas tx result.1
        rollback tx result.2.isSome (initialBalance - gasCost) (initialNonce + 1)
        refundGas tx price result.2.isSome gasUsed
        return some
          { receipt with
            gasUsed := gasUsed,
            status := if result.2.isSome then 0 else 1,
            error := result.2.getD "" }

end ParallelExecutor

end Qau.Parallel
