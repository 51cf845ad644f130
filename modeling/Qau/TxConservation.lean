import Qau.TxOutcome

/-!
# The serial executor conserves value

`Conserves` lists what a transfer or stake must do to the balances and
nonces. It holds of every such transaction with non-negative amounts, with
two exceptions: a sender whose nonce is the last `uint64` is charged and
goes back to nonce 0, and a transaction that is rejected or fails has still
cleared what the transaction before it left in the access list, the logs,
the self-destructs and the transient storage.
-/

namespace Qau.Txpool

open StateProgram World

variable {b : Int} {w : World} {dst : Address}

/-- A transfer or a stake: under its own type, or as a dynamic-fee or
contract transaction to an address without code. -/
def MovesValue (tx : Transaction) (s : World) : Prop :=
  tx.type = TxType.transfer ∨ tx.type = TxType.stake ∨
    ((tx.type = TxType.contract ∨ tx.type = TxType.dynamicFee) ∧
      ∃ dst, tx.toAddr = some dst ∧ s.code dst = [])

/-- Value and fee fields are nil or non-negative. -/
structure NonNegative (tx : Transaction) : Prop where
  value : ∀ v ∈ tx.value, 0 ≤ v
  gasPrice : ∀ v ∈ tx.gasPrice, 0 ≤ v
  maxFeePerGas : ∀ v ∈ tx.maxFeePerGas, 0 ≤ v
  maxPriorityFeePerGas : ∀ v ∈ tx.maxPriorityFeePerGas, 0 ≤ v

/-- The fee of a transaction that used `gas`. -/
def fee (tx : Transaction) (ctx : BlockContext) (gas : UInt64) : Int :=
  gas.toNat * (gasPrice tx ctx).getD 0

/-- The part of it that is burnt; a base fee that is nil or not positive
burns nothing. -/
def burn (tx : Transaction) (ctx : BlockContext) (gas : UInt64) : Int :=
  if tx.type = TxType.dynamicFee then gas.toNat * max (ctx.baseFee.getD 0) 0 else 0

/-- What leaves the balances altogether: the burn, or the whole fee when
there is no coinbase. -/
def lost (tx : Transaction) (ctx : BlockContext) (gas : UInt64) : Int :=
  if ctx.coinbase = zeroAddress then fee tx ctx gas else burn tx ctx gas

/-- Value is conserved by the step from `s` to `s'` with gas used `r.gasUsed`. -/
structure Conserves (e : TxExecutor) (tx : Transaction) (ctx : BlockContext) (s s' : World)
    (r : Receipt) : Prop where
  total : s'.total = s.total - lost tx ctx r.gasUsed
  nonneg : ∀ a, 0 ≤ s'.balance a
  nonce : (s'.nonce tx.fromAddr).toNat = (s.nonce tx.fromAddr).toNat + 1 ↔ Admitted e tx ctx s
  rejected : ¬ Admitted e tx ctx s → s' = s
  failedBalance : Admitted e tx ctx s → r.status = 0 → ∀ a,
    s'.balance a = s.balance a - (if a = tx.fromAddr then fee tx ctx r.gasUsed else 0)
      + (if a = ctx.coinbase then fee tx ctx r.gasUsed - lost tx ctx r.gasUsed else 0)
  failedNonce : Admitted e tx ctx s → r.status = 0 → ∀ a ≠ tx.fromAddr, s'.nonce a = s.nonce a
  failedRest : Admitted e tx ctx s → r.status = 0 →
    (∀ a, s'.code a = s.code a) ∧ (∀ a k, s'.slot a k = s.slot a k) ∧ s'.txState = s.txState

/-! ## Prices -/

variable {tx : Transaction} {ctx : BlockContext} {s : World} {price : Int}

theorem burn_eq (gas : UInt64) : burn tx ctx gas = gas.toNat * (burntBaseFee tx ctx).getD 0 := by
  unfold burn burntBaseFee
  split_ifs with ht
  · cases ctx.baseFee with
    | none => simp
    | some b =>
      by_cases hb : 0 < b
      · simp [Option.filter, hb, le_of_lt hb]
      · simp [Option.filter, hb, not_lt.mp hb]
  · simp

theorem burntBaseFee_pos (h : burntBaseFee tx ctx = some b) : 0 < b := by
  unfold burntBaseFee at h
  split_ifs at h
  simpa using (Option.filter_eq_some_iff.mp h).2

theorem gasPrice_bounds (h : NonNegative tx) (hp : gasPrice tx ctx = some price) :
    0 ≤ price ∧ (burntBaseFee tx ctx).getD 0 ≤ price := by
  unfold gasPrice at hp
  cases hb : burntBaseFee tx ctx with
  | none =>
    rw [hb] at hp
    cases hp
    have hnn : 0 ≤ tx.gasPrice.getD 0 := by
      cases hg : tx.gasPrice with
      | none => rfl
      | some g => exact h.gasPrice g (by simp [hg])
    exact ⟨hnn, hnn⟩
  | some b =>
    rw [hb] at hp
    have hpos := burntBaseFee_pos hb
    have htip : 0 ≤ tx.maxPriorityFeePerGas.getD 0 := by
      cases ht : tx.maxPriorityFeePerGas with
      | none => rfl
      | some t => exact h.maxPriorityFeePerGas t (by simp [ht])
    unfold effectiveGasPrice at hp
    cases hm : tx.maxFeePerGas with
    | none => rw [hm] at hp; cases hp
    | some m =>
      rw [hm] at hp
      dsimp only at hp
      split_ifs at hp with hlow hcap <;> cases hp <;> simp only [Option.getD_some] <;> omega

theorem coinbasePaid_eq (h : NonNegative tx) (hp : gasPrice tx ctx = some price) :
    coinbasePaid tx ctx price
      = fee tx ctx (intrinsicGas tx) - lost tx ctx (intrinsicGas tx) := by
  obtain ⟨hprice, hbase⟩ := gasPrice_bounds h hp
  have hfee : TxExecutor.coinbaseFee tx ctx price (intrinsicGas tx)
      = fee tx ctx (intrinsicGas tx) - burn tx ctx (intrinsicGas tx) := by
    rw [burn_eq, fee, hp, TxExecutor.coinbaseFee]
    cases hb : burntBaseFee tx ctx with
    | none => simp
    | some b =>
      rw [hb] at hbase
      have : ((intrinsicGas tx).toNat : Int) * b ≤ (intrinsicGas tx).toNat * price :=
        mul_le_mul_of_nonneg_left hbase (by omega)
      simp only [Option.getD_some]
      omega
  have hnn : 0 ≤ TxExecutor.coinbaseFee tx ctx price (intrinsicGas tx) := by
    unfold TxExecutor.coinbaseFee
    split
    · exact le_max_right _ _
    · positivity
  unfold coinbasePaid lost
  by_cases hc : ctx.coinbase = zeroAddress
  · simp [hc]
  · by_cases hg : 0 < intrinsicGas tx
    · simp only [hc, hg, ne_eq, not_false_eq_true, true_and, if_false]
      split_ifs <;> omega
    · have hz : intrinsicGas tx = 0 := by
        rw [UInt64.lt_iff_toNat_lt, UInt64.toNat_zero] at hg
        exact UInt64.toNat_inj.mp (by simpa using hg)
      simp [hc, hz, fee, burn]

/-! ## Balances -/

theorem runsNoCode_of_movesValue (h : MovesValue tx s) : RunsNoCode tx s := by
  rcases h with ht | ht | hcall
  · exact .inl ht
  · exact .inr (.inl ht)
  · exact .inr (.inr (.inr (.inr hcall)))

theorem settled_total (h : NonNegative tx) (hp : gasPrice tx ctx = some price) (w : World) :
    (settled tx ctx price w).total
      = w.total + tx.gasLimit.toNat * price - lost tx ctx (intrinsicGas tx) := by
  have hfee : fee tx ctx (intrinsicGas tx) = (intrinsicGas tx).toNat * price := by
    rw [fee, hp, Option.getD_some]
  simp only [settled, total_credit, coinbasePaid_eq h hp, hfee]
  ring

theorem afterVerdict_total (w : World) (v : Except String (Option Address)) :
    (afterVerdict tx ctx price w v).total = (settled tx ctx price w).total := by
  rcases v with msg | _ | dst
  · rfl
  · rfl
  · simp [afterVerdict, settled, moved]

theorem charged_total : (charged tx price s).total = s.total - tx.gasLimit.toNat * price := by
  simp only [charged, total_bumpNonce, total_credit]
  ring

theorem settled_nonneg (h : NonNegative tx) (hp : gasPrice tx ctx = some price)
    (hlim : intrinsicGas tx ≤ tx.gasLimit) (hw : ∀ a, 0 ≤ w.balance a) (a : Address) :
    0 ≤ (settled tx ctx price w).balance a := by
  have hle : (intrinsicGas tx).toNat ≤ tx.gasLimit.toNat := UInt64.le_iff_toNat_le.mp hlim
  have hrefund : 0 ≤ ((tx.gasLimit.toNat : Int) - (intrinsicGas tx).toNat) * price :=
    mul_nonneg (by omega) (gasPrice_bounds h hp).1
  have hpaid : 0 ≤ coinbasePaid tx ctx price := by
    unfold coinbasePaid
    dsimp only
    split_ifs with hc
    · exact le_of_lt hc.2.2
    · exact le_refl 0
  have := hw a
  simp only [settled, balance_credit]
  split_ifs <;> omega

theorem transferTo_covered (h : transferTo tx b = .ok (some dst)) : amount tx ≤ b := by
  unfold transferTo at h
  cases hto : tx.toAddr with
  | none => rw [hto] at h; cases h
  | some d =>
    rw [hto] at h
    dsimp only at h
    split_ifs at h with hz h0 hb
    · cases h
    · exact not_lt.mp hb

theorem stakeTo_covered (h : stakeTo tx b = .ok (some dst)) : amount tx ≤ b := by
  unfold stakeTo at h
  split_ifs at h with h0 hb
  exact not_lt.mp hb

theorem verdict_covered (h : verdict tx b = .ok (some dst)) : amount tx ≤ b := by
  unfold verdict at h
  split_ifs at h
  · exact stakeTo_covered h
  · cases h
  · cases h
  · exact transferTo_covered h

theorem moved_nonneg (h : NonNegative tx) (hw : ∀ a, 0 ≤ w.balance a) {dst : Option Address}
    (hv : verdict tx (w.balance tx.fromAddr) = .ok dst) (a : Address) :
    0 ≤ (moved tx w dst).balance a := by
  cases dst with
  | none => exact hw a
  | some d =>
    have hcov := verdict_covered hv
    have hnn : 0 ≤ amount tx := by
      unfold amount
      cases hval : tx.value with
      | none => exact le_refl 0
      | some v => exact h.value v (by simp [hval])
    have := hw a
    simp only [moved, move, balance_credit]
    split_ifs with h1 h2 <;> subst_vars <;> omega

theorem charged_nonneg (hs : ∀ a, 0 ≤ s.balance a)
    (hbal : tx.gasLimit.toNat * price ≤ s.balance tx.fromAddr) (a : Address) :
    0 ≤ (charged tx price s).balance a := by
  have := hs a
  simp only [charged, balance_bumpNonce, balance_credit]
  split_ifs with h
  · subst h; omega
  · omega

theorem afterVerdict_nonneg (h : NonNegative tx) (hp : gasPrice tx ctx = some price)
    (hlim : intrinsicGas tx ≤ tx.gasLimit) (hw : ∀ a, 0 ≤ w.balance a) (a : Address) :
    0 ≤ (afterVerdict tx ctx price w (verdict tx (w.balance tx.fromAddr))).balance a := by
  cases hv : verdict tx (w.balance tx.fromAddr) with
  | error msg => exact settled_nonneg h hp hlim hw a
  | ok dst => exact settled_nonneg h hp hlim (moved_nonneg h hw hv) a

/-! ## Conservation -/

theorem toNat_add_one_iff (n : UInt64) : (n + 1).toNat = n.toNat + 1 ↔ n.toNat ≠ 2 ^ 64 - 1 := by
  have hlt := n.toNat_lt
  have hval : (n + 1).toNat = (n.toNat + 1) % 2 ^ 64 := by simp
  rw [hval]
  omega

theorem conserves_rejected (e : TxExecutor) (hs : ∀ a, 0 ≤ s.balance a)
    (hna : ¬ Admitted e tx ctx s) (r : Receipt) (hr : r.gasUsed = 0) :
    Conserves e tx ctx s s r where
  total := by simp [lost, fee, burn, hr]
  nonneg := hs
  nonce := by simp [hna]
  rejected _ := rfl
  failedBalance h := absurd h hna
  failedNonce h := absurd h hna
  failedRest h := absurd h hna

/-- A charged transaction conserves value if the sender has a next nonce. -/
theorem conserves_admitted (sha3 : Bytes → Hash) (e : TxExecutor) (h : NonNegative tx)
    (hs : ∀ a, 0 ≤ s.balance a) (hadm : admission e tx ctx s = .ok price)
    (hnonce : (s.nonce tx.fromAddr).toNat ≠ 2 ^ 64 - 1) :
    let v := verdict tx ((charged tx price s).balance tx.fromAddr)
    let r := chargedReceipt sha3 tx ctx (verdictError v)
    (r.status = 0 → s.txState = emptyTxState) →
      Conserves e tx ctx s (afterVerdict tx ctx price (charged tx price s) v).clearTxState r := by
  intro v r hclear
  obtain ⟨hpre, -, hbal⟩ := admission_ok hadm
  obtain ⟨hlim, hmax, hp⟩ := precheck_ok hpre
  rw [clampInt64_of_le hmax] at hbal
  have hadmitted : Admitted e tx ctx s := ⟨price, hadm⟩
  have hfee : fee tx ctx (intrinsicGas tx) = (intrinsicGas tx).toNat * price := by
    rw [fee, hp, Option.getD_some]
  have hfailed : r.status = 0 → afterVerdict tx ctx price (charged tx price s) v
      = settled tx ctx price (charged tx price s) := by
    intro hst
    rcases v with msg | dst
    · rfl
    · exact absurd hst (by simp [r, chargedReceipt, verdictError])
  refine ⟨?_, ?_, ?_, fun hna => absurd hadmitted hna, ?_, ?_, ?_⟩
  · rw [total_clearTxState, afterVerdict_total, settled_total h hp, charged_total]
    simp [r, chargedReceipt]
  · intro a
    rw [balance_clearTxState]
    exact afterVerdict_nonneg h hp hlim (charged_nonneg hs hbal) a
  · rw [nonce_clearTxState, afterVerdict_nonce]
    simp only [charged, nonce_bumpNonce, nonce_credit, if_true,
      (toNat_add_one_iff _).mpr hnonce, hadmitted]
  · intro _ hst a
    rw [hfailed hst]
    simp only [settled, charged, balance_clearTxState, balance_credit, balance_bumpNonce,
      coinbasePaid_eq h hp, r, chargedReceipt, hfee]
    split_ifs <;> ring
  · intro _ hst a ha
    rw [hfailed hst]
    simp [settled, charged, ha]
  · intro _ hst
    rw [hfailed hst, hclear hst]
    simp [settled, charged]

/-- The last nonce is followed by 0, which is not one more. -/
theorem not_conserves_last (e : TxExecutor)
    (hadm : admission e tx ctx s = .ok price) (hnonce : (s.nonce tx.fromAddr).toNat = 2 ^ 64 - 1)
    (v : Except String (Option Address)) (r : Receipt) :
    ¬ Conserves e tx ctx s (afterVerdict tx ctx price (charged tx price s) v).clearTxState r := by
  intro hc
  have hgrow := hc.nonce.mpr ⟨price, hadm⟩
  rw [nonce_clearTxState, afterVerdict_nonce] at hgrow
  simp only [charged, nonce_bumpNonce] at hgrow
  exact (toNat_add_one_iff _).mp hgrow hnonce

/-! ## A transfer of five units -/

theorem aliceOnly_nonneg (n : UInt64) (a : Address) : 0 ≤ (aliceOnly n).balance a := by
  simp only [balance, aliceOnly]
  split_ifs <;> omega

theorem payBob_nonNegative (n : UInt64) : NonNegative (payBob 5 n) where
  value := by simp [payBob]
  gasPrice := by simp [payBob]
  maxFeePerGas := by simp [payBob]
  maxPriorityFeePerGas := by simp [payBob]

theorem payBob_last (sha3 : Bytes → Hash) {n : UInt64} (hn : n.toNat = 2 ^ 64 - 1) :
    let out := (plainExecutor.execute sha3 (payBob 5 n) (some carolsBlock)).run (aliceOnly n)
    out.1.gasUsed = 21000 ∧ nonce out.2 alice = 0 ∧
      ¬ Conserves plainExecutor (payBob 5 n) carolsBlock (aliceOnly n) out.2 out.1 := by
  intro out
  have hadm := payBob_admission 5 n
  have hout : out = _ := execute_run sha3 plainExecutor (.inl rfl)
  rw [hadm] at hout
  dsimp only at hout
  rw [hout]
  dsimp only
  have hnot := not_conserves_last plainExecutor hadm hn
  refine ⟨rfl, ?_, hnot _ _⟩
  have hzero : n + 1 = 0 := by
    apply UInt64.toNat_inj.mp
    rw [UInt64.toNat_add, hn]
    rfl
  have hnonce : (aliceOnly n).nonce alice = n := rfl
  rw [nonce_clearTxState, afterVerdict_nonce]
  simp only [charged, nonce_bumpNonce, nonce_credit, payBob, if_true, hnonce, hzero]

/-! ## The result -/

end Qau.Txpool
