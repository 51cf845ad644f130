import Qau.Account

/-!
# The validator manager

A translation of `validator_manager.go`: the records of the validators with
their stakes, and the calls that add, activate, jail, slash, remove and pay
them out. Stakes are `big.Int` in the source and `Int` here, `none` for nil;
times are `int64`, of which only the difference in `UpdateStake` can wrap.
The wall clock, which the source falls back to while no block time is set,
is an argument. The package's table of system callers is kept with the
manager. Callbacks, the registration record of the ministry and the removal
from the activation queue have no effect on the records and are left out.

A call returns an error or a value; `SetActive` also changes the record on
one of its error paths, so it returns the manager in either case.
-/

namespace Qau.Validators

def minStakeAmount : Int := 32 * 10 ^ 18

def maxStakeAmount : Int := 6600000 * 10 ^ 18

def maxCommission : UInt32 := 10000

def minCommission : UInt32 := 100

def maxReasonableCommission : UInt32 := 5000

def validatorCooldownBlocks : UInt64 := 256

def maxValidators : Nat := 250000

def maxStakeChangePercent : Int := 50

/-- `StakeCooldownPeriod` in seconds. -/
def stakeCooldownPeriod : Int := 3600

def percentDenominator : Int := 100

def basisPointsDenominator : Int := 10000

structure ValidatorInfo where
  stake : Int
  active : Bool
  commission : UInt32
  joinHeight : UInt64
  permanentlySlashed : Bool
  jailedUntil : Int
  lastStakeChange : Int
  pendingDeactivation : Bool
  exitHeight : UInt64
  everActivated : Bool
deriving DecidableEq, Repr

/-- A stake below the minimum deactivates. -/
def ValidatorInfo.setStake (v : ValidatorInfo) (newStake : Int) : ValidatorInfo :=
  { v with stake := newStake, active := v.active && minStakeAmount ≤ newStake }

inductive ValidatorError where
  | unauthorized
  | zeroCaller
  | invalidStake
  | insufficientStake
  | invalidCommission
  | commissionBelowMinimum (commission : UInt32)
  | commissionAboveReasonable (commission : UInt32)
  | alreadyExists
  | setFull
  | notFound
  | alreadyExiting
  | notExiting
  | cooldownNotExpired
  | stakeExceedsMaximum
  | stakeCooldownActive
  | stakeChangeExceedsLimit
  | nilSlash
  | negativeSlash (slash : Int)
  | excessiveSlash (slash : Int)
  | permanentlySlashed
  | firstActivation
  | jailed (jailedUntil : Int)
deriving DecidableEq, Repr

structure ValidatorManager where
  validators : Fmap Address ValidatorInfo
  currentHeight : UInt64
  currentBlockTime : Int
  systemCallers : Fmap Address Unit

def newValidatorManager : ValidatorManager := ⟨∅, 0, 0, ∅⟩

namespace ValidatorManager

variable (vm : ValidatorManager)

def isSystemCaller (caller : Address) : Bool := caller ≠ zeroArr 20 && vm.systemCallers.contains caller

/-- The validator itself or a system caller. -/
def authorized (caller addr : Address) : Bool := vm.isSystemCaller caller || caller = addr

def setRecord (addr : Address) (v : ValidatorInfo) : ValidatorManager :=
  { vm with validators := vm.validators.insert addr v }

/-- Look a record up and replace it. -/
def onRecord (addr : Address) (f : ValidatorInfo → Except ValidatorError ValidatorInfo) :
    Except ValidatorError ValidatorManager :=
  match vm.validators[addr]? with
  | none => .error .notFound
  | some v => (f v).map (vm.setRecord addr)

/-- `blockTime` if it is given, else the block time that is set, else the clock. -/
def stakeTime (blockTime : Option Int) (clock : Int) : Int :=
  match blockTime with
  | some t => if 0 < t then t else if 0 < vm.currentBlockTime then vm.currentBlockTime else clock
  | none => if 0 < vm.currentBlockTime then vm.currentBlockTime else clock

/-! ## Joining and leaving -/

def addValidatorInternal (caller addr : Address) (stake : Option Int) (commission : UInt32)
    (height : UInt64) (isGenesis : Bool) : Except ValidatorError ValidatorManager :=
  if !vm.authorized caller addr then .error .unauthorized
  else if caller = zeroArr 20 then .error .zeroCaller
  else match stake with
    | none => .error .invalidStake
    | some stake =>
      if stake < 0 then .error .invalidStake
      else if stake < minStakeAmount && !isGenesis then .error .insufficientStake
      else if commission > maxCommission then .error .invalidCommission
      else if commission < minCommission then .error (.commissionBelowMinimum commission)
      else if commission > maxReasonableCommission then .error (.commissionAboveReasonable commission)
      else if vm.validators.contains addr then .error .alreadyExists
      else if vm.validators.size ≥ maxValidators then .error .setFull
      else .ok (vm.setRecord addr
        { stake := stake
          active := isGenesis
          commission := commission
          joinHeight := height
          permanentlySlashed := false
          jailedUntil := 0
          lastStakeChange := 0
          pendingDeactivation := false
          exitHeight := 0
          everActivated := isGenesis })

def addGenesisValidator (caller addr : Address) (stake : Option Int) (commission : UInt32)
    (height : UInt64) : Except ValidatorError ValidatorManager :=
  vm.addValidatorInternal caller addr (some (stake.getD 0)) commission height true

def addValidator (caller addr : Address) (stake : Option Int) (commission : UInt32)
    (height : UInt64) : Except ValidatorError ValidatorManager :=
  vm.addValidatorInternal caller addr stake commission height false

def removeValidator (caller addr : Address) : Except ValidatorError ValidatorManager :=
  if !vm.authorized caller addr then .error .unauthorized
  else if caller = zeroArr 20 then .error .zeroCaller
  else vm.onRecord addr fun v =>
    if v.exitHeight > 0 then .error .alreadyExiting
    else .ok { v with active := false, exitHeight := vm.currentHeight }

def withdrawStake (caller addr : Address) : Except ValidatorError (Int × ValidatorManager) :=
  if !vm.authorized caller addr then .error .unauthorized
  else if caller = zeroArr 20 then .error .zeroCaller
  else match vm.validators[addr]? with
    | none => .error .notFound
    | some v =>
      if v.exitHeight = 0 then .error .notExiting
      else if vm.currentHeight < v.exitHeight + validatorCooldownBlocks then .error .cooldownNotExpired
      else .ok (v.stake, { vm with validators := vm.validators.erase addr })

/-! ## Stakes -/

def updateStake (caller addr : Address) (newStake : Option Int) (blockTime : Option Int) (clock : Int) :
    Except ValidatorError ValidatorManager :=
  let now := vm.stakeTime blockTime clock
  if !vm.authorized caller addr then .error .unauthorized
  else match newStake with
    | none => .error .invalidStake
    | some newStake =>
      if newStake < 0 then .error .invalidStake
      else if newStake > maxStakeAmount then .error .stakeExceedsMaximum
      else vm.onRecord addr fun v =>
        if 0 < v.lastStakeChange && (now - v.lastStakeChange).bmod (2 ^ 64) < stakeCooldownPeriod then
          .error .stakeCooldownActive
        else if 0 < v.stake && |newStake - v.stake| > v.stake * maxStakeChangePercent / 100 then
          .error .stakeChangeExceedsLimit
        else if !(0 < v.stake) && 0 < newStake && newStake < minStakeAmount then
          .error .insufficientStake
        else .ok { v.setStake newStake with lastStakeChange := now }

def updateStakeForSlashing (addr : Address) (newStake : Option Int) (blockTime : Option Int)
    (clock : Int) : Except ValidatorError ValidatorManager :=
  match newStake with
  | none => .error .invalidStake
  | some newStake =>
    if newStake < 0 then .error .invalidStake
    else vm.onRecord addr fun v =>
      .ok { v.setStake newStake with lastStakeChange := vm.stakeTime blockTime clock }

/-- The fraction of a stake that is slashed, but 1 rather than nothing. -/
def slashAmount (stake slash denominator : Int) : Int :=
  if 0 < slash ∧ stake * slash / denominator = 0 ∧ 0 < stake then 1 else stake * slash / denominator

/-- The common part of the two slashing calls; `stamp` is the time that only
one of them records. -/
def slashStakeBy (denominator : Int) (stamp : Option Int) (caller addr : Address) (slash : Option Int) :
    Except ValidatorError (Int × ValidatorManager) :=
  if !vm.isSystemCaller caller then .error .unauthorized
  else match slash with
    | none => .error .nilSlash
    | some slash =>
      if slash < 0 then .error (.negativeSlash slash)
      else if slash > denominator then .error (.excessiveSlash slash)
      else match vm.validators[addr]? with
        | none => .error .notFound
        | some v =>
          let amount := slashAmount v.stake slash denominator
          let newStake := if v.stake - amount < 0 then 0 else v.stake - amount
          .ok (amount, vm.setRecord addr
            { v.setStake newStake with lastStakeChange := stamp.getD v.lastStakeChange })

def slashStake (caller addr : Address) (slashPercent : Option Int) :
    Except ValidatorError (Int × ValidatorManager) :=
  vm.slashStakeBy percentDenominator none caller addr slashPercent

def slashStakeBasisPoints (caller addr : Address) (slashBP : Option Int) (clock : Int) :
    Except ValidatorError (Int × ValidatorManager) :=
  vm.slashStakeBy basisPointsDenominator (some (vm.stakeTime none clock)) caller addr slashBP

/-! ## Activity -/

def setActive (caller addr : Address) (active : Bool) (clock : Int) :
    Except ValidatorError Unit × ValidatorManager :=
  if !vm.authorized caller addr then (.error .unauthorized, vm)
  else match vm.validators[addr]? with
    | none => (.error .notFound, vm)
    | some v =>
      let now := if vm.currentBlockTime = 0 then clock else vm.currentBlockTime
      if active && v.permanentlySlashed then (.error .permanentlySlashed, vm)
      else if active && !v.everActivated then (.error .firstActivation, vm)
      else if active && 0 < v.jailedUntil && now < v.jailedUntil then
        (.error (.jailed v.jailedUntil), vm)
      else
        -- an expired jail term is cleared before the stake is looked at
        let v := if active && 0 < v.jailedUntil then { v with jailedUntil := 0 } else v
        if active && v.stake < minStakeAmount then (.error .insufficientStake, vm.setRecord addr v)
        else (.ok (), vm.setRecord addr { v with active := active })

def activateFromQueue (addr : Address) : Except ValidatorError ValidatorManager :=
  vm.onRecord addr fun v =>
    if v.permanentlySlashed then .error .permanentlySlashed
    else .ok { v with active := true, everActivated := true, pendingDeactivation := false }

def markPendingDeactivation (addr : Address) : ValidatorManager :=
  match vm.validators[addr]? with
  | none => vm
  | some v => vm.setRecord addr { v with pendingDeactivation := true }

def setJailedUntil (caller addr : Address) (jailedUntil : Int) :
    Except ValidatorError ValidatorManager :=
  if !vm.isSystemCaller caller then .error .unauthorized
  else vm.onRecord addr fun v => .ok { v with jailedUntil := jailedUntil }

def markPermanentlySlashed (caller addr : Address) : Except ValidatorError ValidatorManager :=
  if !vm.isSystemCaller caller then .error .unauthorized
  else vm.onRecord addr fun v => .ok { v with permanentlySlashed := true, active := false }

def setCurrentHeight (h : UInt64) : ValidatorManager := { vm with currentHeight := h }

def setCurrentBlockTime (t : Int) : ValidatorManager := { vm with currentBlockTime := t }

def registerSystemCaller (addr : Address) : ValidatorManager :=
  { vm with systemCallers := vm.systemCallers.insert addr () }

def unregisterSystemCaller (addr : Address) : ValidatorManager :=
  { vm with systemCallers := vm.systemCallers.erase addr }

end ValidatorManager

/-! ## Calls -/

inductive Call where
  | addValidator (caller addr : Address) (stake : Option Int) (commission : UInt32) (height : UInt64)
  | addGenesisValidator (caller addr : Address) (stake : Option Int) (commission : UInt32)
      (height : UInt64)
  | removeValidator (caller addr : Address)
  | withdrawStake (caller addr : Address)
  | updateStake (caller addr : Address) (newStake blockTime : Option Int) (clock : Int)
  | updateStakeForSlashing (addr : Address) (newStake blockTime : Option Int) (clock : Int)
  | slashStake (caller addr : Address) (slashPercent : Option Int)
  | slashStakeBasisPoints (caller addr : Address) (slashBP : Option Int) (clock : Int)
  | setActive (caller addr : Address) (active : Bool) (clock : Int)
  | activateFromQueue (addr : Address)
  | markPendingDeactivation (addr : Address)
  | setJailedUntil (caller addr : Address) (jailedUntil : Int)
  | markPermanentlySlashed (caller addr : Address)
  | setCurrentHeight (h : UInt64)
  | setCurrentBlockTime (t : Int)
  | registerSystemCaller (addr : Address)
  | unregisterSystemCaller (addr : Address)

/-- The answer of a call: an error, or the amount for those that return one. -/
abbrev Reply := Except ValidatorError (Option Int)

namespace ValidatorManager

variable (vm : ValidatorManager)

/-- An error leaves the manager as it is. -/
def settle : Except ValidatorError ValidatorManager → Reply × ValidatorManager
  | .error e => (.error e, vm)
  | .ok vm' => (.ok none, vm')

/-- The same for a call that returns an amount. -/
def settleAmount : Except ValidatorError (Int × ValidatorManager) → Reply × ValidatorManager
  | .error e => (.error e, vm)
  | .ok (amount, vm') => (.ok (some amount), vm')

def call : Call → Reply × ValidatorManager
  | .addValidator caller addr stake commission height =>
    vm.settle (vm.addValidator caller addr stake commission height)
  | .addGenesisValidator caller addr stake commission height =>
    vm.settle (vm.addGenesisValidator caller addr stake commission height)
  | .removeValidator caller addr => vm.settle (vm.removeValidator caller addr)
  | .withdrawStake caller addr => vm.settleAmount (vm.withdrawStake caller addr)
  | .updateStake caller addr newStake blockTime clock =>
    vm.settle (vm.updateStake caller addr newStake blockTime clock)
  | .updateStakeForSlashing addr newStake blockTime clock =>
    vm.settle (vm.updateStakeForSlashing addr newStake blockTime clock)
  | .slashStake caller addr slashPercent => vm.settleAmount (vm.slashStake caller addr slashPercent)
  | .slashStakeBasisPoints caller addr slashBP clock =>
    vm.settleAmount (vm.slashStakeBasisPoints caller addr slashBP clock)
  | .setActive caller addr active clock =>
    ((vm.setActive caller addr active clock).1.map fun _ => none,
      (vm.setActive caller addr active clock).2)
  | .activateFromQueue addr => vm.settle (vm.activateFromQueue addr)
  | .markPendingDeactivation addr => (.ok none, vm.markPendingDeactivation addr)
  | .setJailedUntil caller addr jailedUntil => vm.settle (vm.setJailedUntil caller addr jailedUntil)
  | .markPermanentlySlashed caller addr => vm.settle (vm.markPermanentlySlashed caller addr)
  | .setCurrentHeight h => (.ok none, vm.setCurrentHeight h)
  | .setCurrentBlockTime t => (.ok none, vm.setCurrentBlockTime t)
  | .registerSystemCaller addr => (.ok none, vm.registerSystemCaller addr)
  | .unregisterSystemCaller addr => (.ok none, vm.unregisterSystemCaller addr)

end ValidatorManager

end Qau.Validators
