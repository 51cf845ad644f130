import Qau.TxExecutor

/-!
# What the serial executor does to the state

`execute_run` reads `Execute` as one equation for the transactions that run
no contract code: a transaction that fails the checks of `admission` leaves
all balances, nonces, slots and code as they are, and any other prepays its
gas limit, takes the next nonce, moves its value if its `verdict` allows it,
and settles the gas. In both cases the state of the last transaction goes.
-/

namespace Qau.Txpool

open StateProgram TxExecutor StoreProgram

variable {ctx : BlockContext} {price : Int} {tx : Transaction} {s : World}
  {e : TxExecutor} {limit used : UInt64}

/-! ## The value moved -/

/-- The amount a transaction carries. -/
def amount (tx : Transaction) : Int := tx.value.getD 0

/-- Where a transfer takes its value, given the sender's balance. -/
def transferTo (tx : Transaction) (balance : Int) : Except String (Option Address) :=
  match tx.toAddr with
  | none => .error "transfer requires recipient"
  | some dst =>
    if dst = zeroAddress then .error "cannot transfer value to zero address"
    else if amount tx = 0 then .ok none
    else if balance < amount tx then .error errInsufficientBalance
    else .ok (some dst)

/-- Where a stake takes its value. -/
def stakeTo (tx : Transaction) (balance : Int) : Except String (Option Address) :=
  if amount tx ≤ 0 then .error "stake requires positive value"
  else if balance < amount tx then .error errInsufficientBalance
  else
    match tx.toAddr.filter (· ≠ stakingAddr) with
    | some dst => .error (errStakeTarget dst)
    | none => .ok (some stakingAddr)

/-- Where a transaction that runs no contract takes its value, if anywhere. -/
def verdict (tx : Transaction) (balance : Int) : Except String (Option Address) :=
  if tx.type = TxType.stake then stakeTo tx balance
  else if tx.type = TxType.unstake then
    if amount tx < 0 then .error "unstake value cannot be negative" else .ok none
  else if tx.type = TxType.commit then .ok none
  else transferTo tx balance

/-- The state after the value moved. -/
def moved (tx : Transaction) (s : World) : Option Address → World
  | none => s
  | some dst => s.move tx.fromAddr dst (amount tx)

/-- The reply of an execution function with the given verdict. -/
def resultOf (tx : Transaction) (s : World) : Except String (Option Address) → ExecResult × World
  | .error msg => ((0, some msg), s)
  | .ok dst => ((0, none), moved tx s dst)

/-- The transaction runs no contract code in `s`. -/
def RunsNoCode (tx : Transaction) (s : World) : Prop :=
  tx.type = TxType.transfer ∨ tx.type = TxType.stake ∨ tx.type = TxType.unstake ∨
    tx.type = TxType.commit ∨
    ((tx.type = TxType.contract ∨ tx.type = TxType.dynamicFee) ∧
      ∃ dst, tx.toAddr = some dst ∧ s.code dst = [])

theorem executeTransfer_run (tx : Transaction) (s : World) :
    (executeTransfer tx).run s = resultOf tx s (transferTo tx (s.balance tx.fromAddr)) := by
  unfold executeTransfer transferTo amount
  cases hto : tx.toAddr with
  | none => rfl
  | some dst =>
    by_cases hz : dst = zeroAddress
    · simp [hz, resultOf]
    · cases hv : tx.value with
      | none => simp [hz, resultOf, moved]
      | some value =>
        by_cases h0 : value = 0
        · simp [hz, h0, resultOf, moved]
        · by_cases hb : s.balance tx.fromAddr < value
          · simp [hz, h0, hb, resultOf]
          · have hset := run_setBalance_add (s.credit tx.fromAddr (-value)) dst value
            simp [hz, h0, hb, resultOf, moved, amount, hv, World.move, -World.balance_credit, hset]

theorem executeStake_run (tx : Transaction) (s : World) :
    (executeStake tx).run s = resultOf tx s (stakeTo tx (s.balance tx.fromAddr)) := by
  unfold executeStake stakeTo amount
  cases hv : tx.value with
  | none => simp [resultOf]
  | some value =>
    by_cases h0 : value ≤ 0
    · simp [h0, resultOf]
    · by_cases hb : s.balance tx.fromAddr < value
      · simp [h0, hb, resultOf]
      · cases hto : tx.toAddr.filter (· ≠ stakingAddr) with
        | some dst => simp [h0, hb, resultOf]
        | none =>
          have hset := run_setBalance_add (s.credit tx.fromAddr (-value)) stakingAddr value
          simp [h0, hb, resultOf, moved, amount, hv, World.move, -World.balance_credit, hset]

theorem executeUnstake_run (tx : Transaction) (s : World) : (executeUnstake tx).run s
      = resultOf tx s
          (if amount tx < 0 then .error "unstake value cannot be negative" else .ok none) := by
  unfold executeUnstake amount
  cases tx.value with
  | none => simp [resultOf, moved]
  | some value => by_cases h : value < 0 <;> simp [h, resultOf, moved]

theorem executeContractCall_run (e : TxExecutor) {dst : Address}
    (hto : tx.toAddr = some dst) (hcode : s.code dst = []) (ctx : BlockContext) (price : Int) :
    (e.executeContractCall tx ctx price).run s = (executeTransfer tx).run s := by
  simp [executeContractCall, hto, hcode]

theorem dispatch_run (e : TxExecutor) (h : RunsNoCode tx s) (ctx : BlockContext) (price : Int) :
    (e.dispatch tx ctx price).run s = resultOf tx s (verdict tx (s.balance tx.fromAddr)) := by
  unfold dispatch verdict
  rcases h with ht | ht | ht | ht | ⟨ht | ht, dst, hto, hcode⟩ <;> rw [ht]
  · exact executeTransfer_run tx s
  · exact executeStake_run tx s
  · exact executeUnstake_run tx s
  · rfl
  · exact (executeContractCall_run e hto hcode ctx price).trans (executeTransfer_run tx s)
  · rw [hto]
    exact (executeContractCall_run e hto hcode ctx price).trans (executeTransfer_run tx s)

/-! ## Admission -/

/-- The whole of the admission checks, in their order: those of `precheck`,
the nonce, and the balance against the prepayment. -/
def admission (e : TxExecutor) (tx : Transaction) (ctx : BlockContext) (s : World) :
    Except String Int :=
  match e.precheck tx ctx with
  | .error msg => .error msg
  | .ok price =>
    if tx.type ≠ TxType.privacy ∧ tx.nonce ≠ s.nonce tx.fromAddr then
      .error (errInvalidNonce tx.nonce (s.nonce tx.fromAddr))
    else if s.balance tx.fromAddr < clampInt64 tx.gasLimit * price then
      .error errInsufficientBalance
    else .ok price

/-- The transaction passes every check, so its gas is charged. -/
def Admitted (e : TxExecutor) (tx : Transaction) (ctx : BlockContext) (s : World) : Prop :=
  ∃ price, admission e tx ctx s = .ok price

theorem precheck_ok (h : e.precheck tx ctx = .ok price) :
    intrinsicGas tx ≤ tx.gasLimit ∧ tx.gasLimit ≤ 30000000 ∧ gasPrice tx ctx = some price := by
  unfold precheck at h
  split_ifs at h with hgas hmax hblock hpriv hmulti
  refine ⟨UInt64.not_lt.mp hgas, UInt64.not_lt.mp hmax, ?_⟩
  cases hp : gasPrice tx ctx with
  | none => rw [hp] at h; cases h
  | some p => rw [hp] at h; cases h; rfl

theorem admission_ok (h : admission e tx ctx s = .ok price) : e.precheck tx ctx = .ok price ∧
      (tx.type ≠ TxType.privacy → tx.nonce = s.nonce tx.fromAddr) ∧
      clampInt64 tx.gasLimit * price ≤ s.balance tx.fromAddr := by
  unfold admission at h
  cases hp : e.precheck tx ctx with
  | error msg => rw [hp] at h; cases h
  | ok p =>
    rw [hp] at h
    dsimp only at h
    split_ifs at h with hnonce hbal
    cases h
    exact ⟨rfl, fun ht => by_contra fun hn => hnonce ⟨ht, hn⟩, not_lt.mp hbal⟩

/-- The gas limit of an admitted transaction is far below `MaxInt64`. -/
theorem clampInt64_of_le {n : UInt64} (h : n ≤ 30000000) : clampInt64 n = n.toNat := by
  have hn : n.toNat ≤ 30000000 := UInt64.le_iff_toNat_le.mp h
  rw [clampInt64, if_neg (by omega)]

/-! ## The run -/

/-- The state after the prepayment and the nonce. -/
def charged (tx : Transaction) (price : Int) (s : World) : World :=
  (s.credit tx.fromAddr (-(tx.gasLimit.toNat * price))).bumpNonce tx.fromAddr

/-- What the coinbase is paid: nothing if there is none. -/
def coinbasePaid (tx : Transaction) (ctx : BlockContext) (price : Int) : Int :=
  let fee := coinbaseFee tx ctx price (intrinsicGas tx)
  if ctx.coinbase ≠ zeroAddress ∧ 0 < intrinsicGas tx ∧ 0 < fee then fee else 0

/-- The state after the refund and the payment to the coinbase. -/
def settled (tx : Transaction) (ctx : BlockContext) (price : Int) (s : World) : World :=
  (s.credit tx.fromAddr ((tx.gasLimit.toNat - (intrinsicGas tx).toNat) * price)).credit
    ctx.coinbase (coinbasePaid tx ctx price)

/-- The receipt of a transaction that was charged. -/
def chargedReceipt (sha3 : Bytes → Hash) (tx : Transaction) (ctx : BlockContext)
    (error : Option String) : Receipt :=
  { blankReceipt sha3 tx ctx with
    gasUsed := intrinsicGas tx,
    status := if error.isSome then 0 else 1,
    error := error.getD "" }

theorem cappedGas_zero (h : intrinsicGas tx ≤ tx.gasLimit) : cappedGas tx 0 = intrinsicGas tx := by
  simp [cappedGas, UInt64.not_lt.mpr h]

theorem toNat_unused (h : used ≤ limit) :
    ((limit - used).toNat : Int) = limit.toNat - used.toNat := by
  have hle : used.toNat ≤ limit.toNat := UInt64.le_iff_toNat_le.mp h
  rw [UInt64.toNat_sub_of_le _ _ h]
  omega

theorem unused_eq_zero (h : used ≤ limit) (hpos : ¬ 0 < limit - used) :
    (limit.toNat : Int) - used.toNat = 0 := by
  rw [UInt64.lt_iff_toNat_lt, UInt64.toNat_zero] at hpos
  rw [← toNat_unused h]
  omega

theorem refundGas_run (hlim : intrinsicGas tx ≤ tx.gasLimit) (hmax : tx.gasLimit ≤ 30000000)
    (price : Int) (s : World) : (refundGas tx price (intrinsicGas tx)).run s
      = ((), s.credit tx.fromAddr ((tx.gasLimit.toNat - (intrinsicGas tx).toNat) * price)) := by
  have hunused := toNat_unused hlim
  have hclamp : clampInt64 (tx.gasLimit - intrinsicGas tx)
      = (tx.gasLimit.toNat - (intrinsicGas tx).toNat : Int) := by
    have h30 : tx.gasLimit.toNat ≤ 30000000 := UInt64.le_iff_toNat_le.mp hmax
    rw [clampInt64, if_neg (by omega), hunused]
  unfold refundGas
  by_cases hpos : 0 < tx.gasLimit - intrinsicGas tx
  · simp [hpos, hclamp]
  · simp [hpos, unused_eq_zero hlim hpos]

theorem payCoinbase_run (tx : Transaction) (ctx : BlockContext) (price : Int) (s : World) :
    (payCoinbase tx ctx price (intrinsicGas tx)).run s
      = ((), s.credit ctx.coinbase (coinbasePaid tx ctx price)) := by
  unfold payCoinbase coinbasePaid
  dsimp only
  split_ifs with h <;> simp

/-- The settlement of a charged transaction, from the verdict on. -/
def afterVerdict (tx : Transaction) (ctx : BlockContext) (price : Int) (s : World) :
    Except String (Option Address) → World
  | .error _ => settled tx ctx price s
  | .ok dst => settled tx ctx price (moved tx s dst)

def verdictError : Except String (Option Address) → Option String
  | .error msg => some msg
  | .ok _ => none

theorem afterVerdict_nonce (w : World) (v : Except String (Option Address)) (a : Address) :
    (afterVerdict tx ctx price w v).nonce a = w.nonce a := by
  rcases v with msg | _ | dst <;> simp [afterVerdict, settled, moved, World.move]

theorem runsNoCode_charged (h : RunsNoCode tx s) (price : Int) (fs : List ((k : StateKey) → k.Val))
    : RunsNoCode tx ((charged tx price s).withFrames fs) := by
  simpa [RunsNoCode, charged] using h

theorem moved_withFrames (tx : Transaction) (s : World) (fs : List ((k : StateKey) → k.Val))
    (dst : Option Address) : moved tx (s.withFrames fs) dst = (moved tx s dst).withFrames fs := by
  cases dst <;> rfl

@[simp] theorem frames_moved (tx : Transaction) (s : World) (dst : Option Address) :
    (moved tx s dst).frames = s.frames := by
  cases dst <;> rfl

theorem prepaid_run (sha3 : Bytes → Hash) (e : TxExecutor)
    (h : RunsNoCode tx s) (hpre : e.precheck tx ctx = .ok price)
    (hbal : clampInt64 tx.gasLimit * price ≤ s.balance tx.fromAddr) :
    (e.prepaid sha3 tx ctx price).run s =
      let v := verdict tx ((charged tx price s).balance tx.fromAddr)
      (chargedReceipt sha3 tx ctx (verdictError v),
        afterVerdict tx ctx price (charged tx price s) v) := by
  obtain ⟨hlim, hmax, -⟩ := precheck_ok hpre
  have hclamp := clampInt64_of_le hmax
  rw [hclamp] at hbal
  have hcharge : (s.credit tx.fromAddr (-(tx.gasLimit.toNat * price))).bumpNonce tx.fromAddr
      = charged tx price s := rfl
  unfold prepaid
  rw [run_bind, run_getBalance]
  rw [hclamp, if_neg (not_lt.mpr hbal)]
  simp only [run_bind, run_setBalance_sub, run_incrementNonce, run_takeSnapshot,
    hcharge, dispatch_run e (runsNoCode_charged h price _), World.balance_withFrames]
  cases verdict tx ((charged tx price s).balance tx.fromAddr) with
  | error msg =>
    have hrestore : restore
        ((charged tx price s).withFrames ((charged tx price s).frames ++ [(charged tx price s).store]))
        (charged tx price s).frames.length = charged tx price s :=
      restore_push (charged tx price s) _
    simp only [resultOf, cappedGas_zero hlim, Option.isSome_some, revertIf, if_true,
      run_revertToSnapshot, hrestore, refundGas_run hlim hmax, payCoinbase_run,
      run_releaseSnapshot, World.frames_credit, List.take_length]
    rfl
  | ok dst =>
    simp only [resultOf, cappedGas_zero hlim, revertIf,
      refundGas_run hlim hmax, payCoinbase_run,
      moved_withFrames]
    simp [chargedReceipt, verdictError, afterVerdict, settled]

theorem checked_run (sha3 : Bytes → Hash) (e : TxExecutor) (h : RunsNoCode tx s) :
    (e.checked sha3 tx ctx).run s =
      match admission e tx ctx s with
      | .error msg => ({ blankReceipt sha3 tx ctx with error := msg }, s)
      | .ok price =>
        let v := verdict tx ((charged tx price s).balance tx.fromAddr)
        (chargedReceipt sha3 tx ctx (verdictError v),
          afterVerdict tx ctx price (charged tx price s) v) := by
  have htype : tx.type ≠ TxType.privacy := by
    rcases h with ht | ht | ht | ht | ⟨ht | ht, -⟩ <;> rw [ht] <;> decide
  cases hpre : e.precheck tx ctx with
  | error msg => simp only [checked, admission, hpre, run_pure]
  | ok price =>
    simp only [checked, admission, hpre, if_neg htype]
    rw [run_bind, run_getNonce]
    by_cases hnonce : tx.nonce = s.nonce tx.fromAddr
    · rw [if_neg (not_not.mpr hnonce), if_neg fun hn => hn.2 hnonce]
      by_cases hbal : s.balance tx.fromAddr < clampInt64 tx.gasLimit * price
      · rw [if_pos hbal, prepaid, run_bind, run_getBalance]
        dsimp only
        rw [if_pos hbal, run_pure]
      · rw [if_neg hbal]
        exact prepaid_run sha3 e h hpre (not_lt.mp hbal)
    · rw [if_pos hnonce, if_pos ⟨htype, hnonce⟩, run_pure]

/-- Neither a charge nor a settlement looks at the state of the transaction. -/
theorem afterVerdict_clearTxState (v : Except String (Option Address)) :
    afterVerdict tx ctx price (charged tx price s.clearTxState) v =
      (afterVerdict tx ctx price (charged tx price s) v).clearTxState := by
  rcases v with msg | _ | dst <;> simp [afterVerdict, settled, charged, moved, World.move]

theorem execute_run (sha3 : Bytes → Hash) (e : TxExecutor) (h : RunsNoCode tx s) :
    (e.execute sha3 tx (some ctx)).run s =
      match admission e tx ctx s with
      | .error msg => ({ blankReceipt sha3 tx ctx with error := msg }, s.clearTxState)
      | .ok price =>
        let v := verdict tx ((charged tx price s).balance tx.fromAddr)
        (chargedReceipt sha3 tx ctx (verdictError v),
          (afterVerdict tx ctx price (charged tx price s) v).clearTxState) := by
  have hcode : RunsNoCode tx s.clearTxState := by simpa [RunsNoCode] using h
  have hadm : admission e tx ctx s.clearTxState = admission e tx ctx s := by simp [admission]
  rw [execute, run_bind, run_clearTxState, checked_run sha3 e hcode, hadm]
  cases admission e tx ctx s with
  | error msg => rfl
  | ok price =>
    have hbal : (charged tx price s.clearTxState).balance tx.fromAddr =
        (charged tx price s).balance tx.fromAddr := by simp [charged]
    simp only [hbal, afterVerdict_clearTxState]

/-! ## A payment -/

def alice : Address := copyInto 20 [1]
def bob : Address := copyInto 20 [2]
def carol : Address := copyInto 20 [3]

/-- Alice has a balance and the given nonce; nothing else is there. -/
def aliceOnly (n : UInt64) : World where
  store
    | .balance a => if a = alice then 100000 else 0
    | .nonce _ => n
    | .storage _ _ => zeroArr 32
    | .code _ => []
    | .tx => emptyTxState

/-- Alice pays Bob `v`. -/
def payBob (v : Int) (n : UInt64) : Transaction :=
  { type := TxType.transfer, nonce := n, fromAddr := alice, toAddr := some bob, value := some v,
    gasLimit := 30000, gasPrice := some 1 }

def carolsBlock : BlockContext := { coinbase := carol, gasLimit := 30000000, baseFee := some 7 }

/-- An executor that runs no contracts. -/
def plainExecutor : TxExecutor where
  callContract _ _ _ := return (0, none)
  executeContractCreate _ _ _ := return (0, none)
  executePrivacyTransfer _ := return (0, none)
  executeMultiSigTransfer _ := return (0, none)

theorem payBob_admission (v : Int) (n : UInt64) :
    admission plainExecutor (payBob v n) carolsBlock (aliceOnly n) = .ok 1 := by
  have hpre : plainExecutor.precheck (payBob v n) carolsBlock = .ok 1 := rfl
  have hbal : (aliceOnly n).balance (payBob v n).fromAddr = 100000 := by
    simp [World.balance, aliceOnly, payBob]
  have hclamp : clampInt64 (payBob v n).gasLimit = 30000 := rfl
  have hnonce : (payBob v n).nonce = (aliceOnly n).nonce (payBob v n).fromAddr := rfl
  simp [admission, hpre, hbal, hclamp, hnonce]

end Qau.Txpool
