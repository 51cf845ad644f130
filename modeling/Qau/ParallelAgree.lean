import Qau.ParallelTx

/-!
# Where the two executors agree

On a transfer, stake, unstake or commit transaction that the serial
executor admits, the parallel one over the same plain state gives the same
status, gas, balances and nonces exactly when `SameRules` holds: the rules
the two implementations do not share decide nothing.
-/

namespace Qau.Parallel

open StateProgram Txpool ParallelExecutor World
open Txpool (amount moved charged verdictError)

variable {left : Int} {d d' : Option Address} {s : World} {price : Int}

/-! ## Gas -/

/-- The gas of one byte of data. -/
def byteCost (b : UInt8) : Nat := if b = 0 then 4 else 16

/-- Gas with the cost of the data added, in unbounded arithmetic. -/
def withDataCost (gas : Nat) (data : Bytes) : Nat := data.foldl (fun gas b => gas + byteCost b) gas

/-- The gas of a transaction that creates no contract, in unbounded
arithmetic. -/
def intrinsicCost (tx : Transaction) : Nat := withDataCost 21000 tx.data

theorem le_withDataCost (data : Bytes) (gas : Nat) : gas ≤ withDataCost gas data := by
  induction data generalizing gas with
  | nil => exact le_refl gas
  | cons b data ih => exact le_trans (Nat.le_add_right _ _) (ih _)

theorem toNat_byteCost (b : UInt8) : (if b = 0 then 4 else 16 : UInt64).toNat = byteCost b := by
  unfold byteCost
  split_ifs <;> rfl

theorem toNat_add_byteCost {gas : UInt64} {b : UInt8} (h : gas.toNat + byteCost b < 2 ^ 64) :
    (gas + if b = 0 then 4 else 16).toNat = gas.toNat + byteCost b := by
  rw [UInt64.toNat_add, toNat_byteCost, Nat.mod_eq_of_lt h]

theorem addGas_room (gas : UInt64) (b : UInt8) :
    maxUint64 - (if b = 0 then 4 else 16) < gas ↔ 2 ^ 64 ≤ gas.toNat + byteCost b := by
  unfold byteCost
  split_ifs
  · show 18446744073709551611 < gas.toNat ↔ _
    omega
  · show 18446744073709551599 < gas.toNat ↔ _
    omega

theorem toNat_foldl_dataGas (data : Bytes) (gas : UInt64) (h : withDataCost gas.toNat data < 2 ^ 64)
    : (data.foldl (fun gas b => gas + defaultGasTable.dataGas b) gas).toNat
      = withDataCost gas.toNat data := by
  induction data generalizing gas with
  | nil => rfl
  | cons b data ih =>
    have hstep := toNat_add_byteCost (lt_of_le_of_lt (le_withDataCost data _) h)
    show (data.foldl _ (gas + if b = 0 then 4 else 16)).toNat
      = withDataCost (gas.toNat + byteCost b) data
    rw [ih _ (by rw [hstep]; exact h), hstep]

/-- The saturating sum is the wrapping one while it is in range. -/
theorem foldlM_addGas (data : Bytes) (gas : UInt64) (h : withDataCost gas.toNat data < 2 ^ 64) :
    data.foldlM (fun gas b => addGas gas (if b = 0 then 4 else 16)) gas
      = some (data.foldl (fun gas b => gas + defaultGasTable.dataGas b) gas) := by
  induction data generalizing gas with
  | nil => rfl
  | cons b data ih =>
    have hlt := lt_of_le_of_lt (le_withDataCost data _) h
    have hstep := toNat_add_byteCost hlt
    rw [List.foldlM_cons, addGas, if_neg ((addGas_room gas b).not.mpr (not_le.mpr hlt))]
    exact ih _ (by rw [hstep]; exact h)

theorem foldlM_addGas_over (data : Bytes) (gas : UInt64) (h : 2 ^ 64 ≤ withDataCost gas.toNat data)
    : data.foldlM (fun gas b => addGas gas (if b = 0 then 4 else 16)) gas = none := by
  induction data generalizing gas with
  | nil => exact absurd gas.toNat_lt (not_lt.mpr h)
  | cons b data ih =>
    rw [List.foldlM_cons, addGas]
    by_cases hover : 2 ^ 64 ≤ gas.toNat + byteCost b
    · rw [if_pos ((addGas_room gas b).mpr hover)]
      rfl
    · have hstep := toNat_add_byteCost (not_le.mp hover)
      rw [if_neg ((addGas_room gas b).not.mpr hover)]
      exact ih _ (by rw [hstep]; exact h)

/-- The four kinds of transaction the two executors are compared on. -/
def Compared (tx : Transaction) : Prop :=
  tx.type = TxType.transfer ∨ tx.type = TxType.stake ∨ tx.type = TxType.unstake ∨
    tx.type = TxType.commit

variable {tx : Transaction}

theorem Compared.ne (h : Compared tx) :
    tx.type ≠ TxType.create ∧ tx.type ≠ TxType.dynamicFee ∧ tx.type ≠ TxType.privacy := by
  rcases h with ht | ht | ht | ht <;> rw [ht] <;> decide

theorem Compared.runsNoCode (h : Compared tx) (s : World) : Txpool.RunsNoCode tx s := by
  rcases h with ht | ht | ht | ht
  · exact .inl ht
  · exact .inr (.inl ht)
  · exact .inr (.inr (.inl ht))
  · exact .inr (.inr (.inr (.inl ht)))

theorem serialGas_eq (h : Compared tx) : Txpool.intrinsicGas tx
      = tx.data.foldl (fun gas b => gas + defaultGasTable.dataGas b) 21000 := by
  have hne : ¬ (tx.type = TxType.create ∨ (tx.type = TxType.dynamicFee ∧ tx.toAddr = none)) := by
    rintro (hc | ⟨hd, -⟩)
    · exact h.ne.1 hc
    · exact h.ne.2.1 hd
  exact if_neg hne

/-- Both compute the same gas unless it leaves the range of a `uint64`. -/
theorem intrinsicGas_eq (h : Compared tx) (hcost : intrinsicCost tx < 2 ^ 64) :
    intrinsicGas tx = Txpool.intrinsicGas tx := by
  have hfold := foldlM_addGas tx.data 21000 hcost
  rw [serialGas_eq h, intrinsicGas, hfold]
  simp [h.ne.1]

theorem intrinsicGas_over (hcost : 2 ^ 64 ≤ intrinsicCost tx) : intrinsicGas tx = maxUint64 := by
  rw [intrinsicGas, foldlM_addGas_over tx.data 21000 hcost]
  rfl

theorem serialGas_pos (h : Compared tx) (hcost : intrinsicCost tx < 2 ^ 64) :
    0 < (Txpool.intrinsicGas tx).toNat := by
  have hval := toNat_foldl_dataGas tx.data 21000 hcost
  have hle : 21000 ≤ withDataCost 21000 tx.data := le_withDataCost _ _
  rw [serialGas_eq h, hval]
  exact lt_of_lt_of_le (by decide) hle

/-! ## The value moved -/

def transferTo (tx : Transaction) (balance : Int) : Except String (Option Address) :=
  match tx.toAddr with
  | none => .error "transfer requires recipient"
  | some dst =>
    if amount tx = 0 then .ok none
    else if balance < amount tx then .error "insufficient balance"
    else .ok (some dst)

def stakeTo (tx : Transaction) (balance : Int) : Except String (Option Address) :=
  if amount tx ≤ 0 then .error "stake requires positive value"
  else
    match tx.toAddr with
    | none => .error "stake tx requires non-nil tx.To equal to canonical staking contract"
    | some dst =>
      if dst ≠ stakingAddr then
        .error "stake tx.To must equal canonical staking contract 0x…1001"
      else if balance < amount tx then .error "insufficient balance for stake"
      else .ok (some stakingAddr)

/-- Where the parallel executor takes the value. -/
def verdict (tx : Transaction) (balance : Int) : Except String (Option Address) :=
  if tx.type = TxType.stake then stakeTo tx balance
  else if tx.type = TxType.unstake then
    if amount tx < 0 then .error "unstake value cannot be negative" else .ok none
  else if tx.type = TxType.commit then .ok none
  else transferTo tx balance

theorem executeTransfer_run (tx : Transaction) (s : World) :
    (executeTransfer tx).run s = resultOf tx s (transferTo tx (s.balance tx.fromAddr)) := by
  unfold executeTransfer transferTo amount
  cases hto : tx.toAddr with
  | none => rfl
  | some dst =>
    cases hv : tx.value with
    | none => simp [resultOf, moved]
    | some value =>
      by_cases h0 : value = 0
      · simp [h0, resultOf, moved]
      · by_cases hb : s.balance tx.fromAddr < value
        · simp [h0, hb, resultOf]
        · have hset := run_setBalance_add (s.credit tx.fromAddr (-value)) dst value
          simp [h0, hb, resultOf, moved, amount, hv, move, -balance_credit, hset]

theorem executeStake_run (tx : Transaction) (s : World) :
    (executeStake tx).run s = resultOf tx s (stakeTo tx (s.balance tx.fromAddr)) := by
  unfold executeStake stakeTo amount
  cases hv : tx.value with
  | none => simp [resultOf]
  | some value =>
    by_cases h0 : value ≤ 0
    · simp [h0, resultOf]
    · cases hto : tx.toAddr with
      | none => simp [h0, resultOf]
      | some dst =>
        by_cases hd : dst = stakingAddr
        · by_cases hb : s.balance tx.fromAddr < value
          · simp [h0, hd, hb, resultOf]
          · have hset := run_setBalance_add (s.credit tx.fromAddr (-value)) stakingAddr value
            simp [h0, hd, hb, resultOf, moved, amount, hv, move,
              -balance_credit, hset]
        · simp [h0, hd, resultOf]

theorem dispatch_run (pe : ParallelExecutor) (h : Compared tx) (s : World) :
    (pe.dispatch tx).run s = resultOf tx s (verdict tx (s.balance tx.fromAddr)) := by
  unfold dispatch verdict
  rcases h with ht | ht | ht | ht <;> rw [ht]
  · exact executeTransfer_run tx s
  · exact executeStake_run tx s
  · exact executeUnstake_run tx s
  · rfl

/-- The rules the two implementations do not share: the zero address as the
target of a transfer, and no target for a stake. -/
structure SameTargets (tx : Transaction) (left : Int) : Prop where
  transfer : tx.type = TxType.transfer → tx.toAddr = some zeroAddress →
    amount tx ≠ 0 ∧ left < amount tx
  stake : tx.type = TxType.stake → tx.toAddr = none → amount tx ≤ 0 ∨ left < amount tx

theorem transferTo_same (left : Int) :
    (verdictError (transferTo tx left)).isSome = (verdictError (Txpool.transferTo tx left)).isSome
      ↔ (tx.toAddr = some zeroAddress → amount tx ≠ 0 ∧ left < amount tx) := by
  unfold transferTo Txpool.transferTo
  cases tx.toAddr with
  | none => simp
  | some dst =>
    by_cases hz : dst = zeroAddress
    · by_cases h0 : amount tx = 0
      · simp [hz, h0, verdictError]
      · by_cases hb : left < amount tx <;> simp [hz, h0, hb, verdictError]
    · by_cases h0 : amount tx = 0
      · simp [hz, h0]
      · by_cases hb : left < amount tx <;> simp [hz, h0, hb, verdictError]

theorem stakeTo_same (left : Int) :
    (verdictError (stakeTo tx left)).isSome = (verdictError (Txpool.stakeTo tx left)).isSome
      ↔ (tx.toAddr = none → amount tx ≤ 0 ∨ left < amount tx) := by
  unfold stakeTo Txpool.stakeTo
  by_cases h0 : amount tx ≤ 0
  · simp [h0]
  · cases tx.toAddr with
    | none => by_cases hb : left < amount tx <;> simp [h0, hb, verdictError]
    | some dst =>
      by_cases hd : dst = stakingAddr
      · by_cases hb : left < amount tx <;> simp [h0, hb, hd, verdictError, Option.filter]
      · by_cases hb : left < amount tx <;> simp [h0, hb, hd, verdictError, Option.filter]

/-- Both fail or both succeed exactly under `SameTargets`. -/
theorem verdict_same (h : Compared tx) (left : Int) :
    (verdictError (verdict tx left)).isSome = (verdictError (Txpool.verdict tx left)).isSome
      ↔ SameTargets tx left := by
  unfold verdict Txpool.verdict
  rcases h with ht | ht | ht | ht
  · rw [ht]
    exact (transferTo_same left).trans
      ⟨fun hz => ⟨fun _ => hz, fun hs => absurd (ht.symm.trans hs) (by decide)⟩,
        fun hc => hc.transfer ht⟩
  · rw [ht]
    exact (stakeTo_same left).trans
      ⟨fun hn => ⟨fun hs => absurd (ht.symm.trans hs) (by decide), fun _ => hn⟩,
        fun hc => hc.stake ht⟩
  · refine iff_of_true (by rw [ht]; rfl) ⟨fun hs => ?_, fun hs => ?_⟩
    · exact absurd (ht.symm.trans hs) (by decide)
    · exact absurd (ht.symm.trans hs) (by decide)
  · refine iff_of_true (by rw [ht]; rfl) ⟨fun hs => ?_, fun hs => ?_⟩
    · exact absurd (ht.symm.trans hs) (by decide)
    · exact absurd (ht.symm.trans hs) (by decide)

theorem transferTo_dst (h : transferTo tx left = .ok d) (h' : Txpool.transferTo tx left = .ok d') :
    d = d' := by
  unfold transferTo at h
  unfold Txpool.transferTo at h'
  cases hto : tx.toAddr with
  | none => rw [hto] at h; cases h
  | some dst =>
    rw [hto] at h h'
    dsimp only at h h'
    split_ifs at h h' <;> cases h <;> cases h' <;> rfl

theorem stakeTo_dst (h : stakeTo tx left = .ok d) (h' : Txpool.stakeTo tx left = .ok d') :
    d = d' := by
  have hd : d = some stakingAddr := by
    unfold stakeTo at h
    cases hto : tx.toAddr with
    | none => rw [hto] at h; split_ifs at h
    | some dst =>
      rw [hto] at h
      dsimp only at h
      split_ifs at h
      cases h
      rfl
  have hd' : d' = some stakingAddr := by
    unfold Txpool.stakeTo at h'
    cases hto : tx.toAddr.filter (· ≠ stakingAddr) with
    | none => rw [hto] at h'; split_ifs at h'; cases h'; rfl
    | some dst => rw [hto] at h'; split_ifs at h'
  rw [hd, hd']

theorem verdict_dst (h : verdict tx left = .ok d) (h' : Txpool.verdict tx left = .ok d') :
    d = d' := by
  unfold verdict at h
  unfold Txpool.verdict at h'
  split_ifs at h h'
  · exact stakeTo_dst h h'
  · cases h; cases h'; rfl
  · cases h; cases h'; rfl
  · exact transferTo_dst h h'

/-! ## The run on a plain state -/

/-- The state at the end, from the verdict on: a failure gives nothing back. -/
def afterVerdict (tx : Transaction) (price : Int) (s : World) :
    Except String (Option Address) → World
  | .error _ => s
  | .ok dst =>
    (moved tx s dst).credit tx.fromAddr ((tx.gasLimit.toNat - (intrinsicGas tx).toNat) * price)

def chargedReceipt (sha3 : Bytes → Hash) (txIdx : Nat) (tx : Transaction) (error : Option String) :
    Receipt :=
  { txHash := txHash sha3 tx, txIndex := txIdx,
    gasUsed := intrinsicGas tx,
    status := if error.isSome then 0 else 1,
    error := error.getD "" }

theorem refundGas_run (hlim : intrinsicGas tx ≤ tx.gasLimit) (price : Int) (s : World) :
    (refundGas tx price false (intrinsicGas tx)).run s
      = ((), s.credit tx.fromAddr ((tx.gasLimit.toNat - (intrinsicGas tx).toNat) * price)) := by
  unfold refundGas
  by_cases hpos : 0 < tx.gasLimit - intrinsicGas tx
  · simp [hpos, toNat_unused hlim]
  · simp [hpos, unused_eq_zero hlim hpos]

section
variable (sha3 : Bytes → Hash) (pe : ParallelExecutor) (txIdx : Nat)
include sha3 pe txIdx

theorem executeTransaction_over (hgas : tx.gasLimit < intrinsicGas tx) (s : World) :
    ((pe.executeTransaction sha3 txIdx tx).run s).2 = s := by
  rw [executeTransaction, if_pos hgas]
  rfl

theorem executeTransaction_nil (hgas : ¬ tx.gasLimit < intrinsicGas tx) (hnil : tx.gasPrice = none)
    (s : World) : (pe.executeTransaction sha3 txIdx tx).run s = (none, s) := by
  rw [executeTransaction, if_neg hgas, hnil]
  rfl

theorem executeTransaction_run (h : Compared tx) (hlim : intrinsicGas tx ≤ tx.gasLimit)
    (hprice : tx.gasPrice = some price) (hbal : tx.gasLimit.toNat * price ≤ s.balance tx.fromAddr) :
    (pe.executeTransaction sha3 txIdx tx).run s =
      let v := verdict tx ((charged tx price s).balance tx.fromAddr)
      (some (chargedReceipt sha3 txIdx tx (verdictError v)),
        afterVerdict tx price (charged tx price s) v) := by
  have hcap : cappedGas tx 0 = intrinsicGas tx := by
    simp [cappedGas, UInt64.not_lt.mpr hlim]
  have hcharge : (s.credit tx.fromAddr (-(tx.gasLimit.toNat * price))).bumpNonce tx.fromAddr
      = charged tx price s := rfl
  rw [executeTransaction, if_neg (UInt64.not_lt.mpr hlim), hprice]
  rw [StoreProgram.run_bind, run_getBalance]
  rw [if_neg (not_lt.mpr hbal)]
  simp only [StoreProgram.run_bind, run_setBalance_sub, run_getNonce, run_setNonce_succ, hcharge,
    dispatch_run pe h]
  cases verdict tx ((charged tx price s).balance tx.fromAddr) with
  | error msg =>
    simp [resultOf, rollback, refundGas, hcap,
      chargedReceipt, verdictError, afterVerdict]
  | ok dst =>
    simp [resultOf, rollback, refundGas_run hlim, hcap,
      chargedReceipt, verdictError, afterVerdict]

end

/-! ## Agreement -/

/-- Who receives the value; a stake without a target goes to the staking
contract. -/
def recipient (tx : Transaction) : Option Address :=
  if tx.type = TxType.stake then some (tx.toAddr.getD stakingAddr) else tx.toAddr

/-- Same status and gas, and same balance and nonce of sender and recipient. -/
structure Agree (tx : Transaction) (serial : Txpool.Receipt × World)
    (parallel : Option Receipt × World) : Prop where
  receipt : ∃ r, parallel.1 = some r ∧ r.status = serial.1.status ∧ r.gasUsed = serial.1.gasUsed
  balance : ∀ a, a = tx.fromAddr ∨ recipient tx = some a →
    balance parallel.2 a = balance serial.2 a
  nonce : ∀ a, a = tx.fromAddr ∨ recipient tx = some a →
    nonce parallel.2 a = nonce serial.2 a

/-- What the sender has left after the prepayment. -/
def leftOver (tx : Transaction) (s : World) : Int :=
  s.balance tx.fromAddr - tx.gasLimit.toNat * tx.gasPrice.getD 0

/-- The rules that only one executor has decide nothing: the gas price is
set, the gas is in range, the target is one both treat alike, a failure
leaves no gas to refund, and the fee goes to neither party. -/
structure SameRules (tx : Transaction) (ctx : Txpool.BlockContext) (s : World) : Prop where
  price : tx.gasPrice ≠ none
  gas : intrinsicCost tx < 2 ^ 64
  targets : SameTargets tx (leftOver tx s)
  refund : (∃ msg, Txpool.verdict tx (leftOver tx s) = .error msg) →
    tx.gasLimit = Txpool.intrinsicGas tx ∨ tx.gasPrice.getD 0 = 0
  coinbase : ctx.coinbase ≠ zeroAddress → 0 < tx.gasPrice.getD 0 →
    ctx.coinbase ≠ tx.fromAddr ∧ recipient tx ≠ some ctx.coinbase

section Gap

variable {ctx : Txpool.BlockContext} {price : Int}

theorem gasPrice_eq (h : Compared tx) : gasPrice tx ctx = some (tx.gasPrice.getD 0) := by
  simp [gasPrice, Txpool.burntBaseFee, h.ne.2.1]

theorem coinbasePaid_eq (h : Compared tx) (hcost : intrinsicCost tx < 2 ^ 64)
    (ctx : Txpool.BlockContext) (price : Int) : Txpool.coinbasePaid tx ctx price
      = if ctx.coinbase ≠ zeroAddress ∧ 0 < price then
          ((Txpool.intrinsicGas tx).toNat : Int) * price else 0 := by
  have hg : (0 : Int) < (Txpool.intrinsicGas tx).toNat := by exact_mod_cast serialGas_pos h hcost
  have hgas : 0 < Txpool.intrinsicGas tx := UInt64.lt_iff_toNat_lt.mpr (serialGas_pos h hcost)
  simp only [Txpool.coinbasePaid, Txpool.TxExecutor.coinbaseFee, Txpool.burntBaseFee, h.ne.2.1,
    if_false, hgas, true_and, mul_pos_iff_of_pos_left hg]

/-- What the serial executor leaves at `a` beyond the parallel one. -/
def gap (tx : Transaction) (ctx : Txpool.BlockContext) (price : Int) (failed : Bool)
    (a : Address) : Int :=
  (if failed ∧ a = tx.fromAddr then
      ((tx.gasLimit.toNat : Int) - (Txpool.intrinsicGas tx).toNat) * price else 0)
    + (if a = ctx.coinbase then Txpool.coinbasePaid tx ctx price else 0)

theorem balance_gap (w : World) (hgas : intrinsicGas tx = Txpool.intrinsicGas tx)
    (hsame : (verdictError (verdict tx left)).isSome
      = (verdictError (Txpool.verdict tx left)).isSome) (a : Address) :
    (Txpool.afterVerdict tx ctx price w (Txpool.verdict tx left)).balance a
      = (afterVerdict tx price w (verdict tx left)).balance a
        + gap tx ctx price (verdictError (Txpool.verdict tx left)).isSome a := by
  cases hp : verdict tx left with
  | error msg =>
    rw [hp] at hsame
    cases hs : Txpool.verdict tx left with
    | ok d => rw [hs] at hsame; cases hsame
    | error msg' =>
      simp [Txpool.afterVerdict, afterVerdict, Txpool.settled, gap, verdictError, add_assoc]
  | ok d =>
    rw [hp] at hsame
    cases hs : Txpool.verdict tx left with
    | error msg => rw [hs] at hsame; cases hsame
    | ok d' =>
      rw [verdict_dst hp hs]
      simp [Txpool.afterVerdict, afterVerdict, Txpool.settled, gap, verdictError, hgas]

/-- The gap closes for both parties exactly under the last two rules. -/
theorem gap_eq_zero_iff (h : Compared tx) (hcost : intrinsicCost tx < 2 ^ 64)
    (hlim : Txpool.intrinsicGas tx ≤ tx.gasLimit) (failed : Bool) :
    (∀ a, a = tx.fromAddr ∨ recipient tx = some a → gap tx ctx price failed a = 0)
      ↔ (failed = true → tx.gasLimit = Txpool.intrinsicGas tx ∨ price = 0) ∧
        (ctx.coinbase ≠ zeroAddress → 0 < price →
          ctx.coinbase ≠ tx.fromAddr ∧ recipient tx ≠ some ctx.coinbase) := by
  have hle : (Txpool.intrinsicGas tx).toNat ≤ tx.gasLimit.toNat := UInt64.le_iff_toNat_le.mp hlim
  have hunused : (0 : Int) ≤ tx.gasLimit.toNat - (Txpool.intrinsicGas tx).toNat := by omega
  have hg : (0 : Int) < (Txpool.intrinsicGas tx).toNat := by exact_mod_cast serialGas_pos h hcost
  have hlimit : tx.gasLimit = Txpool.intrinsicGas tx
      ↔ (tx.gasLimit.toNat : Int) - (Txpool.intrinsicGas tx).toNat = 0 := by
    rw [← UInt64.toNat_inj]
    omega
  have hpaid := coinbasePaid_eq h hcost ctx price
  have hpaid_nonneg : 0 ≤ Txpool.coinbasePaid tx ctx price := by
    rw [hpaid]
    split_ifs with hc
    · exact mul_nonneg hg.le hc.2.le
    · exact le_refl 0
  constructor
  · intro hzero
    refine ⟨fun hfailed => ?_, fun hc hprice => ?_⟩
    · have hsender := hzero tx.fromAddr (.inl rfl)
      simp only [gap, hfailed, true_and, if_true] at hsender
      rw [hlimit, ← mul_eq_zero]
      rcases lt_or_ge price 0 with hneg | hpos
      · have hnone : Txpool.coinbasePaid tx ctx price = 0 := by
          rw [hpaid, if_neg fun hc => absurd hc.2 (not_lt.mpr hneg.le)]
        rw [hnone] at hsender
        simpa using hsender
      · have hrefund := mul_nonneg hunused hpos
        split_ifs at hsender <;> omega
    · have hfee : 0 < Txpool.coinbasePaid tx ctx price := by
        rw [hpaid, if_pos ⟨hc, hprice⟩]
        exact mul_pos hg hprice
      have hrefund := mul_nonneg hunused hprice.le
      have hout : ∀ a, a = tx.fromAddr ∨ recipient tx = some a → a ≠ ctx.coinbase := by
        rintro a ha rfl
        have hgap := hzero _ ha
        simp only [gap] at hgap
        split_ifs at hgap <;> omega
      exact ⟨fun heq => hout _ (.inl rfl) heq.symm, fun heq => hout _ (.inr heq) rfl⟩
  · rintro ⟨hrefund, hcoinbase⟩ a ha
    have hfirst : (if failed = true ∧ a = tx.fromAddr then
        ((tx.gasLimit.toNat : Int) - (Txpool.intrinsicGas tx).toNat) * price else 0) = 0 := by
      split_ifs with hf
      · rw [mul_eq_zero, ← hlimit]
        exact hrefund hf.1
      · rfl
    have hsecond : (if a = ctx.coinbase then Txpool.coinbasePaid tx ctx price else 0) = 0 := by
      split_ifs with hac
      · rw [hpaid]
        split_ifs with hc
        · obtain ⟨hfrom, hto⟩ := hcoinbase hc.1 hc.2
          rcases ha with rfl | ha
          · exact absurd hac.symm hfrom
          · exact absurd (hac ▸ ha) hto
        · rfl
      · rfl
    rw [gap, hfirst, hsecond, add_zero]

end Gap

theorem charged_left (hprice : tx.gasPrice.getD 0 = price) :
    (charged tx price s).balance tx.fromAddr = leftOver tx s := by
  simp only [charged, leftOver, balance_bumpNonce, balance_credit, if_true, hprice]
  ring

theorem afterVerdict_nonce (price : Int) (w : World) (v : Except String (Option Address))
    (a : Address) : (afterVerdict tx price w v).nonce a = w.nonce a := by
  rcases v with msg | _ | dst <;> simp [afterVerdict, moved, move]

theorem status_eq_iff (e e' : Option String) :
    ((if e.isSome then 0 else 1 : UInt64) = if e'.isSome then 0 else 1) ↔ e.isSome = e'.isSome := by
  cases e <;> cases e' <;> simp

/-- What an admitted transaction of the four kinds does in the serial
executor. -/
theorem serial_run (sha3 : Bytes → Hash) (e : Txpool.TxExecutor) (h : Compared tx)
    {ctx : Txpool.BlockContext} (hadm : Txpool.Admitted e tx ctx s) :
    (e.execute sha3 tx (some ctx)).run s =
      (Txpool.chargedReceipt sha3 tx ctx (verdictError (Txpool.verdict tx (leftOver tx s))),
        (Txpool.afterVerdict tx ctx (tx.gasPrice.getD 0) (charged tx (tx.gasPrice.getD 0) s)
          (Txpool.verdict tx (leftOver tx s))).clearTxState) := by
  obtain ⟨price, hprice⟩ := hadm
  obtain ⟨-, -, hgp⟩ := Txpool.precheck_ok (Txpool.admission_ok hprice).1
  have heq : tx.gasPrice.getD 0 = price := Option.some.inj ((gasPrice_eq h).symm.trans hgp)
  rw [Txpool.execute_run sha3 e (h.runsNoCode s), hprice]
  dsimp only
  rw [charged_left heq, heq]

theorem agree_clearTxState {r : Txpool.Receipt} {w : World} {p : Option Receipt × World} :
    Agree tx (r, w.clearTxState) p ↔ Agree tx (r, w) p := by
  constructor
  · exact fun h => ⟨h.receipt, by simpa using h.balance, by simpa using h.nonce⟩
  · exact fun h => ⟨h.receipt, by simpa using h.balance, by simpa using h.nonce⟩

/-- With the gas in range and a gas price, both executors charge the sender
and what is left to compare are the verdicts and the gap. -/
theorem agree_charged_iff (sha3 : Bytes → Hash) (pe : ParallelExecutor) (txIdx : Nat)
    (ctx : Txpool.BlockContext) (s : World) (h : Compared tx) (hprice : tx.gasPrice = some price)
    (hcost : intrinsicCost tx < 2 ^ 64) (hlim : Txpool.intrinsicGas tx ≤ tx.gasLimit)
    (hbal : tx.gasLimit.toNat * price ≤ s.balance tx.fromAddr) : Agree tx
        (Txpool.chargedReceipt sha3 tx ctx (verdictError (Txpool.verdict tx (leftOver tx s))),
          Txpool.afterVerdict tx ctx price (charged tx price s)
            (Txpool.verdict tx (leftOver tx s)))
        ((pe.executeTransaction sha3 txIdx tx).run s)
      ↔ SameRules tx ctx s := by
  have hgas := intrinsicGas_eq h hcost
  have hgetD : tx.gasPrice.getD 0 = price := by rw [hprice]; rfl
  rw [executeTransaction_run sha3 pe txIdx h (hgas ▸ hlim) hprice hbal, charged_left hgetD]
  have hgapIff := @gap_eq_zero_iff tx ctx price h hcost hlim
    (verdictError (Txpool.verdict tx (leftOver tx s))).isSome
  constructor
  · intro ha
    obtain ⟨r, hr, hst, -⟩ := ha.receipt
    cases hr
    have hsame := (status_eq_iff _ _).mp hst
    have hgaps : ∀ a, a = tx.fromAddr ∨ recipient tx = some a → gap tx ctx price
        (verdictError (Txpool.verdict tx (leftOver tx s))).isSome a = 0 := by
      intro a hparty
      have heq := ha.balance a hparty
      dsimp only at heq
      rw [balance_gap _ hgas hsame] at heq
      omega
    obtain ⟨hrefund, hcoinbase⟩ := hgapIff.mp hgaps
    refine ⟨by simp [hprice], hcost, (verdict_same h _).mp hsame, ?_, ?_⟩
    · rintro ⟨msg, hmsg⟩
      rw [hgetD]
      exact hrefund (by rw [hmsg]; rfl)
    · rw [hgetD]
      exact hcoinbase
  · intro hr
    have hsame := (verdict_same h _).mpr hr.targets
    have hrefund : (verdictError (Txpool.verdict tx (leftOver tx s))).isSome = true →
        tx.gasLimit = Txpool.intrinsicGas tx ∨ price = 0 := by
      intro hf
      rw [← hgetD]
      cases hv : Txpool.verdict tx (leftOver tx s) with
      | error msg => exact hr.refund ⟨msg, hv⟩
      | ok d => rw [hv] at hf; cases hf
    have hgaps := hgapIff.mpr ⟨hrefund, by rw [← hgetD]; exact hr.coinbase⟩
    refine ⟨⟨_, rfl, (status_eq_iff _ _).mpr hsame, hgas⟩, fun a hparty => ?_, fun a _ => ?_⟩
    · rw [balance_gap _ hgas hsame, hgaps a hparty, add_zero]
    · rw [afterVerdict_nonce, Txpool.afterVerdict_nonce]

/-! ## A payment in both -/

open Txpool (alice bob carol aliceOnly payBob carolsBlock plainExecutor)

/-- A parallel executor that runs no contracts. -/
def plainParallel : ParallelExecutor where
  executeContractCall _ := return (0, none)
  executeContractCreate _ := return (0, none)
  executePrivacyTransfer _ := return (0, none)
  executeMultiSigTransfer _ := return (0, none)

theorem payBob_sameRules : SameRules (payBob 5 7) carolsBlock (aliceOnly 7) where
  price := by decide
  gas := by decide
  targets := ⟨fun _ h => absurd h (by decide), fun h => absurd h (by decide)⟩
  refund := by
    rintro ⟨msg, hmsg⟩
    have hok : Txpool.verdict (payBob 5 7) (leftOver (payBob 5 7) (aliceOnly 7))
        = .ok (some bob) := rfl
    rw [hok] at hmsg
    cases hmsg
  coinbase _ _ := by decide

/-- The executors agree on an admitted transaction exactly under
`SameRules`. -/
theorem agree_iff (sha3 : Bytes → Hash) (e : Txpool.TxExecutor) (pe : ParallelExecutor)
    (txIdx : Nat) (tx : Transaction) (ctx : Txpool.BlockContext) (s : World) (h : Compared tx)
    (hadm : Txpool.Admitted e tx ctx s) :
    Agree tx ((e.execute sha3 tx (some ctx)).run s) ((pe.executeTransaction sha3 txIdx tx).run s)
      ↔ SameRules tx ctx s := by
  rw [serial_run sha3 e h hadm, agree_clearTxState]
  obtain ⟨price, hok⟩ := hadm
  obtain ⟨hpre, -, hbal⟩ := Txpool.admission_ok hok
  obtain ⟨hlim, hmax, hgp⟩ := Txpool.precheck_ok hpre
  have hgetD : tx.gasPrice.getD 0 = price := Option.some.inj ((gasPrice_eq h).symm.trans hgp)
  rw [clampInt64_of_le hmax] at hbal
  rw [hgetD]
  by_cases hcost : intrinsicCost tx < 2 ^ 64
  · cases hnil : tx.gasPrice with
    | none =>
      have hgas : ¬ tx.gasLimit < intrinsicGas tx := by
        rw [intrinsicGas_eq h hcost]
        exact UInt64.not_lt.mpr hlim
      rw [executeTransaction_nil sha3 pe txIdx hgas hnil]
      refine iff_of_false (fun ha => ?_) fun hr => hr.price hnil
      obtain ⟨r, hr, -⟩ := ha.receipt
      cases hr
    | some p =>
      have hp : p = price := by simpa [hnil] using hgetD
      rw [hp] at hnil
      exact agree_charged_iff sha3 pe txIdx ctx s h hnil hcost hlim hbal
  · have hover : tx.gasLimit < intrinsicGas tx := by
      rw [intrinsicGas_over (not_lt.mp hcost)]
      exact UInt64.lt_of_le_of_lt hmax (by decide)
    refine iff_of_false (fun ha => ?_) fun hr => hcost hr.gas
    have hn := ha.nonce tx.fromAddr (.inl rfl)
    rw [executeTransaction_over sha3 pe txIdx hover, Txpool.afterVerdict_nonce] at hn
    simp [charged] at hn

theorem agree_payBob :
    Compared (payBob 5 7) ∧ Txpool.Admitted plainExecutor (payBob 5 7) carolsBlock (aliceOnly 7) ∧
      ∀ sha3 : Bytes → Hash, Agree (payBob 5 7)
        ((plainExecutor.execute sha3 (payBob 5 7) (some carolsBlock)).run (aliceOnly 7))
        ((plainParallel.executeTransaction sha3 0 (payBob 5 7)).run (aliceOnly 7)) :=
  ⟨.inl rfl, ⟨1, payBob_admission 5 7⟩, fun sha3 =>
    (agree_iff sha3 plainExecutor plainParallel 0 (payBob 5 7) carolsBlock (aliceOnly 7) (.inl rfl)
      ⟨1, payBob_admission 5 7⟩).mpr payBob_sameRules⟩

/-- A payment that Alice cannot make costs her the gas used in one executor
and the gas limit in the other. -/
theorem disagree_unfunded :
    Txpool.Admitted plainExecutor (payBob 200000 7) carolsBlock (aliceOnly 7) ∧
      ∀ sha3 : Bytes → Hash,
        let tx := payBob 200000 7
        let serial := (plainExecutor.execute sha3 tx (some carolsBlock)).run (aliceOnly 7)
        let parallel := (plainParallel.executeTransaction sha3 0 tx).run (aliceOnly 7)
        serial.1.status = 0 ∧ serial.1.gasUsed = 21000 ∧
          balance serial.2 alice = 79000 ∧ balance parallel.2 alice = 70000 ∧
          ¬ Agree tx serial parallel := by
  have hadm : Txpool.Admitted plainExecutor (payBob 200000 7) carolsBlock (aliceOnly 7) :=
    ⟨1, payBob_admission 200000 7⟩
  refine ⟨hadm, ?_⟩
  intro sha3 tx serial parallel
  have hleft : leftOver tx (aliceOnly 7) = 70000 := by decide
  have hfail : Txpool.verdict tx (leftOver tx (aliceOnly 7))
      = .error errInsufficientBalance := by rw [hleft]; rfl
  have hserial : serial = _ := serial_run sha3 plainExecutor (.inl rfl) hadm
  rw [hfail] at hserial
  have hlim : intrinsicGas tx ≤ tx.gasLimit := by decide
  have hfund : tx.gasLimit.toNat * 1 ≤ (aliceOnly 7).balance tx.fromAddr := by decide
  have hparallel : parallel = _ :=
    executeTransaction_run sha3 plainParallel 0 (.inl rfl) hlim rfl hfund
  have hfail' : verdict tx (leftOver tx (aliceOnly 7)) = .error "insufficient balance" := by
    rw [hleft]; rfl
  have hcharged : (charged tx 1 (aliceOnly 7)).balance tx.fromAddr = leftOver tx (aliceOnly 7) :=
    charged_left rfl
  rw [hcharged, hfail'] at hparallel
  have hs : balance serial.2 alice = 79000 := by
    rw [hserial]
    show balance (Txpool.settled tx carolsBlock 1 (charged tx 1 (aliceOnly 7))).clearTxState alice =
      79000
    decide
  have hp : balance parallel.2 alice = 70000 := by
    rw [hparallel]
    show balance (charged tx 1 (aliceOnly 7)) alice = 70000
    decide
  refine ⟨?_, ?_, hs, hp, fun ha => ?_⟩
  · rw [hserial]; rfl
  · rw [hserial]; rfl
  · have heq := ha.balance alice (.inl rfl)
    rw [hs, hp] at heq
    exact absurd heq (by decide)

end Qau.Parallel
