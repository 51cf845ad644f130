import Qau.ValidatorManager

/-!
# What a call to the validator manager does

The effects a call can have on the records, with its answer (`Effect`), and
that every call has one of them (`call_effect`). The invariants of runs are
read off from this and never open a call again.
-/

namespace Qau.Validators

open ValidatorManager

variable {addr caller : Address} {c : Call} {vm' : ValidatorManager}

def ValidatorInfo.clearJail (v : ValidatorInfo) : ValidatorInfo :=
  if 0 < v.jailedUntil then { v with jailedUntil := 0 } else v

theorem ValidatorInfo.clearJail_stake (v : ValidatorInfo) : v.clearJail.stake = v.stake := by
  unfold ValidatorInfo.clearJail
  split_ifs <;> rfl

/-- A slashing call for a fraction of the stake. -/
inductive Slashes : Call → Address → (slash denominator : Int) → Prop where
  | percent (caller addr : Address) (slash : Int) :
    Slashes (.slashStake caller addr (some slash)) addr slash percentDenominator
  | basisPoints (caller addr : Address) (slash clock : Int) :
    Slashes (.slashStakeBasisPoints caller addr (some slash) clock) addr slash basisPointsDenominator

/-- What a call can do, with its answer and the manager after it. -/
inductive Effect (vm : ValidatorManager) : Call → Reply → ValidatorManager → Prop where
  | refused (c : Call) (e : ValidatorError) : Effect vm c (.error e) vm
  | joined (caller addr : Address) {stake : Int} {commission : UInt32} {height : UInt64}
      (absent : vm.validators[addr]? = none) (enough : minStakeAmount ≤ stake) :
    Effect vm (.addValidator caller addr (some stake) commission height) (.ok none)
      (vm.setRecord addr ⟨stake, false, commission, height, false, 0, 0, false, 0, false⟩)
  | joinedGenesis (caller addr : Address) {stake : Option Int} {commission : UInt32}
      {height : UInt64} (absent : vm.validators[addr]? = none) (nonneg : 0 ≤ stake.getD 0) :
    Effect vm (.addGenesisValidator caller addr stake commission height) (.ok none)
      (vm.setRecord addr ⟨stake.getD 0, true, commission, height, false, 0, 0, false, 0, true⟩)
  | left (caller addr : Address) {v : ValidatorInfo} (found : vm.validators[addr]? = some v)
      (staying : v.exitHeight = 0) :
    Effect vm (.removeValidator caller addr) (.ok none)
      (vm.setRecord addr { v with active := false, exitHeight := vm.currentHeight })
  | paid (caller addr : Address) {v : ValidatorInfo} (found : vm.validators[addr]? = some v)
      (exiting : v.exitHeight ≠ 0)
      (expired : ¬ vm.currentHeight < v.exitHeight + validatorCooldownBlocks) :
    Effect vm (.withdrawStake caller addr) (.ok (some v.stake))
      { vm with validators := vm.validators.erase addr }
  | restaked (caller addr : Address) {n clock t : Int} {blockTime : Option Int} {v : ValidatorInfo}
      (found : vm.validators[addr]? = some v) (nonneg : 0 ≤ n) :
    Effect vm (.updateStake caller addr (some n) blockTime clock) (.ok none)
      (vm.setRecord addr { v.setStake n with lastStakeChange := t })
  | penalized (addr : Address) {n clock t : Int} {blockTime : Option Int} {v : ValidatorInfo}
      (found : vm.validators[addr]? = some v) (nonneg : 0 ≤ n) :
    Effect vm (.updateStakeForSlashing addr (some n) blockTime clock) (.ok none)
      (vm.setRecord addr { v.setStake n with lastStakeChange := t })
  | slashed {c : Call} {addr : Address} {slash denominator t : Int} {v : ValidatorInfo}
      (slashes : Slashes c addr slash denominator) (found : vm.validators[addr]? = some v)
      (range : 0 ≤ slash ∧ slash ≤ denominator) :
    Effect vm c (.ok (some (slashAmount v.stake slash denominator)))
      (vm.setRecord addr { v.setStake
        (if v.stake - slashAmount v.stake slash denominator < 0 then 0
          else v.stake - slashAmount v.stake slash denominator)
        with lastStakeChange := t })
  | activated (caller addr : Address) {clock : Int} {v : ValidatorInfo}
      (found : vm.validators[addr]? = some v) (unslashed : v.permanentlySlashed = false)
      (enough : minStakeAmount ≤ v.stake) :
    Effect vm (.setActive caller addr true clock) (.ok none)
      (vm.setRecord addr { v.clearJail with active := true })
  | unjailed (caller addr : Address) {clock : Int} {v : ValidatorInfo}
      (found : vm.validators[addr]? = some v) (low : v.stake < minStakeAmount) :
    Effect vm (.setActive caller addr true clock) (.error .insufficientStake)
      (vm.setRecord addr v.clearJail)
  | deactivated (caller addr : Address) {clock : Int} {v : ValidatorInfo}
      (found : vm.validators[addr]? = some v) :
    Effect vm (.setActive caller addr false clock) (.ok none)
      (vm.setRecord addr { v with active := false })
  | queued (addr : Address) {v : ValidatorInfo} (found : vm.validators[addr]? = some v)
      (unslashed : v.permanentlySlashed = false) :
    Effect vm (.activateFromQueue addr) (.ok none)
      (vm.setRecord addr { v with active := true, everActivated := true, pendingDeactivation := false })
  | pending (addr : Address) {v : ValidatorInfo} (found : vm.validators[addr]? = some v) :
    Effect vm (.markPendingDeactivation addr) (.ok none)
      (vm.setRecord addr { v with pendingDeactivation := true })
  | pendingAbsent (addr : Address) : Effect vm (.markPendingDeactivation addr) (.ok none) vm
  | jailed (caller addr : Address) {jailedUntil : Int} {v : ValidatorInfo}
      (found : vm.validators[addr]? = some v) :
    Effect vm (.setJailedUntil caller addr jailedUntil) (.ok none)
      (vm.setRecord addr { v with jailedUntil := jailedUntil })
  | banned (caller addr : Address) {v : ValidatorInfo} (found : vm.validators[addr]? = some v) :
    Effect vm (.markPermanentlySlashed caller addr) (.ok none)
      (vm.setRecord addr { v with permanentlySlashed := true, active := false })
  | height (h : UInt64) : Effect vm (.setCurrentHeight h) (.ok none) (vm.setCurrentHeight h)
  | time (t : Int) : Effect vm (.setCurrentBlockTime t) (.ok none) (vm.setCurrentBlockTime t)
  | registered (addr : Address) :
    Effect vm (.registerSystemCaller addr) (.ok none) (vm.registerSystemCaller addr)
  | unregistered (addr : Address) :
    Effect vm (.unregisterSystemCaller addr) (.ok none) (vm.unregisterSystemCaller addr)

variable {vm : ValidatorManager}

theorem settle_effect {r : Except ValidatorError ValidatorManager}
    (h : ∀ vm', r = .ok vm' → Effect vm c (.ok none) vm') :
    Effect vm c (vm.settle r).1 (vm.settle r).2 := by
  cases r with
  | error e => exact .refused c e
  | ok vm' => exact h vm' rfl

theorem settleAmount_effect {r : Except ValidatorError (Int × ValidatorManager)}
    (h : ∀ amount vm', r = .ok (amount, vm') → Effect vm c (.ok (some amount)) vm') :
    Effect vm c (vm.settleAmount r).1 (vm.settleAmount r).2 := by
  cases r with
  | error e => exact .refused c e
  | ok r => exact h r.1 r.2 rfl

theorem onRecord_eq_ok {f : ValidatorInfo → Except ValidatorError ValidatorInfo}
    (h : vm.onRecord addr f = .ok vm') :
    ∃ v v', vm.validators[addr]? = some v ∧ f v = .ok v' ∧ vm' = vm.setRecord addr v' := by
  unfold onRecord at h
  split at h
  · cases h
  next v hv =>
    cases hf : f v with
    | error e =>
      rw [hf] at h
      cases h
    | ok v' =>
      rw [hf] at h
      exact ⟨v, v', hv, hf, (Except.ok.inj h).symm⟩

theorem addValidatorInternal_eq_ok {stake : Option Int} {commission : UInt32}
    {height : UInt64} {isGenesis : Bool}
    (h : vm.addValidatorInternal caller addr stake commission height isGenesis = .ok vm') :
    ∃ n, stake = some n ∧ 0 ≤ n ∧ (isGenesis = false → minStakeAmount ≤ n) ∧
      vm.validators[addr]? = none ∧ vm' = vm.setRecord addr
        ⟨n, isGenesis, commission, height, false, 0, 0, false, 0, isGenesis⟩ := by
  unfold addValidatorInternal at h
  cases stake with
  | none =>
    dsimp only at h
    split_ifs at h
  | some n =>
    dsimp only at h
    split_ifs at h with _ _ hneg hmin _ _ _ hexists
    refine ⟨n, rfl, not_lt.mp hneg, fun hg => ?_, ?_, (Except.ok.inj h).symm⟩
    · subst hg
      simpa using hmin
    · simpa using hexists

theorem slashStakeBy_eq_ok {denominator : Int} {stamp : Option Int} {slash : Option Int}
    {amount : Int} (h : vm.slashStakeBy denominator stamp caller addr slash = .ok (amount, vm')) :
    ∃ n v t, slash = some n ∧ (0 ≤ n ∧ n ≤ denominator) ∧ vm.validators[addr]? = some v ∧
      amount = slashAmount v.stake n denominator ∧
      vm' = vm.setRecord addr { v.setStake
        (if v.stake - slashAmount v.stake n denominator < 0 then 0
          else v.stake - slashAmount v.stake n denominator)
        with lastStakeChange := t } := by
  unfold slashStakeBy at h
  cases slash with
  | none =>
    dsimp only at h
    split_ifs at h
  | some n =>
    dsimp only at h
    split_ifs at h with _ hneg hbig
    split at h
    · cases h
    next v hv =>
      obtain ⟨rfl, rfl⟩ := Prod.mk.inj (Except.ok.inj h)
      exact ⟨n, v, _, rfl, ⟨not_lt.mp hneg, not_lt.mp hbig⟩, hv, rfl, rfl⟩

theorem withdrawStake_eq_ok {amount : Int} (h : vm.withdrawStake caller addr = .ok (amount, vm')) :
    ∃ v, vm.validators[addr]? = some v ∧ v.exitHeight ≠ 0 ∧
      ¬ vm.currentHeight < v.exitHeight + validatorCooldownBlocks ∧ amount = v.stake ∧
      vm' = { vm with validators := vm.validators.erase addr } := by
  unfold withdrawStake at h
  split_ifs at h
  split at h
  · cases h
  next v hv =>
    split_ifs at h with hexit hcool
    obtain ⟨rfl, rfl⟩ := Prod.mk.inj (Except.ok.inj h)
    exact ⟨v, hv, hexit, hcool, rfl, rfl⟩

theorem setActive_effect (caller addr : Address) (active : Bool) (clock : Int) :
    Effect vm (.setActive caller addr active clock)
      ((vm.setActive caller addr active clock).1.map fun _ => none)
      (vm.setActive caller addr active clock).2 := by
  unfold setActive
  by_cases hauth : (!vm.authorized caller addr) = true
  · rw [if_pos hauth]
    exact .refused _ _
  rw [if_neg hauth]
  cases hv : vm.validators[addr]? with
  | none => exact .refused _ _
  | some v =>
    cases active with
    | false => exact .deactivated caller addr hv
    | true =>
      have hclear : (if 0 < v.jailedUntil then { v with jailedUntil := 0 } else v) = v.clearJail := rfl
      simp only [Bool.true_and, hclear, decide_eq_true_eq]
      generalize (if vm.currentBlockTime = 0 then clock else vm.currentBlockTime) = now
      split_ifs with hslashed _ _ hlow
      · exact .refused _ _
      · exact .refused _ _
      · exact .refused _ _
      · exact .unjailed caller addr hv (v.clearJail_stake ▸ hlow)
      · exact .activated caller addr hv (by simpa using hslashed)
          (not_lt.mp (v.clearJail_stake ▸ hlow))

theorem call_effect (vm : ValidatorManager) (c : Call) : Effect vm c (vm.call c).1 (vm.call c).2 := by
  cases c with
  | addValidator caller addr stake commission height =>
    refine settle_effect fun vm' h => ?_
    obtain ⟨n, rfl, -, hmin, habsent, rfl⟩ := addValidatorInternal_eq_ok h
    exact .joined caller addr habsent (hmin rfl)
  | addGenesisValidator caller addr stake commission height =>
    refine settle_effect fun vm' h => ?_
    obtain ⟨n, hn, hneg, -, habsent, rfl⟩ := addValidatorInternal_eq_ok h
    obtain rfl := Option.some.inj hn
    exact .joinedGenesis caller addr habsent hneg
  | removeValidator caller addr =>
    refine settle_effect fun vm' h => ?_
    unfold removeValidator at h
    split_ifs at h
    obtain ⟨v, v', hv, hf, rfl⟩ := onRecord_eq_ok h
    split_ifs at hf with hexit
    obtain rfl := Except.ok.inj hf
    exact .left caller addr hv (by simpa using hexit)
  | withdrawStake caller addr =>
    refine settleAmount_effect fun amount vm' h => ?_
    obtain ⟨v, hv, hexit, hcool, rfl, rfl⟩ := withdrawStake_eq_ok h
    exact .paid caller addr hv hexit hcool
  | updateStake caller addr newStake blockTime clock =>
    refine settle_effect fun vm' h => ?_
    unfold updateStake at h
    cases newStake with
    | none =>
      dsimp only at h
      split_ifs at h
    | some n =>
      dsimp only at h
      split_ifs at h with _ hneg
      obtain ⟨v, v', hv, hf, rfl⟩ := onRecord_eq_ok h
      split_ifs at hf
      obtain rfl := Except.ok.inj hf
      exact .restaked caller addr hv (not_lt.mp hneg)
  | updateStakeForSlashing addr newStake blockTime clock =>
    refine settle_effect fun vm' h => ?_
    unfold updateStakeForSlashing at h
    cases newStake with
    | none => cases h
    | some n =>
      dsimp only at h
      split_ifs at h with hneg
      obtain ⟨v, v', hv, hf, rfl⟩ := onRecord_eq_ok h
      obtain rfl := Except.ok.inj hf
      exact .penalized addr hv (not_lt.mp hneg)
  | slashStake caller addr slashPercent =>
    refine settleAmount_effect fun amount vm' h => ?_
    obtain ⟨n, v, t, rfl, hrange, hv, rfl, rfl⟩ := slashStakeBy_eq_ok h
    exact .slashed (.percent caller addr n) hv hrange
  | slashStakeBasisPoints caller addr slashBP clock =>
    refine settleAmount_effect fun amount vm' h => ?_
    obtain ⟨n, v, t, rfl, hrange, hv, rfl, rfl⟩ := slashStakeBy_eq_ok h
    exact .slashed (.basisPoints caller addr n clock) hv hrange
  | setActive caller addr active clock => exact setActive_effect caller addr active clock
  | activateFromQueue addr =>
    refine settle_effect fun vm' h => ?_
    obtain ⟨v, v', hv, hf, rfl⟩ := onRecord_eq_ok h
    split_ifs at hf with hslashed
    obtain rfl := Except.ok.inj hf
    exact .queued addr hv (by simpa using hslashed)
  | markPendingDeactivation addr =>
    show Effect vm _ _ (vm.markPendingDeactivation addr)
    unfold markPendingDeactivation
    split
    · exact .pendingAbsent addr
    next v hv => exact .pending addr hv
  | setJailedUntil caller addr jailedUntil =>
    refine settle_effect fun vm' h => ?_
    unfold setJailedUntil at h
    split_ifs at h
    obtain ⟨v, v', hv, hf, rfl⟩ := onRecord_eq_ok h
    obtain rfl := Except.ok.inj hf
    exact .jailed caller addr hv
  | markPermanentlySlashed caller addr =>
    refine settle_effect fun vm' h => ?_
    unfold markPermanentlySlashed at h
    split_ifs at h
    obtain ⟨v, v', hv, hf, rfl⟩ := onRecord_eq_ok h
    obtain rfl := Except.ok.inj hf
    exact .banned caller addr hv
  | setCurrentHeight h => exact .height h
  | setCurrentBlockTime t => exact .time t
  | registerSystemCaller addr => exact .registered addr
  | unregisterSystemCaller addr => exact .unregistered addr

theorem getElem?_setRecord (vm : ValidatorManager) (addr a : Address) (v : ValidatorInfo) :
    (vm.setRecord addr v).validators[a]? = if addr = a then some v else vm.validators[a]? := by
  unfold setRecord
  rw [Fmap.getElem?_insert]

theorem Effect.stake_nonneg {reply : Reply} (he : Effect vm c reply vm')
    (h : ∀ (addr : Address) (v : ValidatorInfo), vm.validators[addr]? = some v → 0 ≤ v.stake)
    (a : Address) (w : ValidatorInfo) (hw : vm'.validators[a]? = some w) : 0 ≤ w.stake := by
  have hset : ∀ {addr : Address} {v : ValidatorInfo},
      (vm.setRecord addr v).validators[a]? = some w → 0 ≤ v.stake → 0 ≤ w.stake := by
    intro addr v hw hv
    rw [getElem?_setRecord] at hw
    split_ifs at hw with ha
    · rwa [← Option.some.inj hw]
    · exact h a w hw
  cases he with
  | joined caller addr absent enough => exact hset hw ((by decide : 0 ≤ minStakeAmount).trans enough)
  | joinedGenesis caller addr absent nonneg | restaked caller addr found nonneg | penalized addr found nonneg => exact hset hw nonneg
  | paid caller addr found =>
    simp only [Fmap.getElem?_erase] at hw
    split_ifs at hw
    exact h a w hw
  | slashed slashes found range =>
    refine hset hw ?_
    simp only [ValidatorInfo.setStake]
    split_ifs with hneg
    · exact le_rfl
    · exact not_lt.mp hneg
  | activated caller addr found | unjailed caller addr found =>
    have hv := h _ _ found
    rw [← ValidatorInfo.clearJail_stake] at hv
    exact hset hw hv
  | left caller addr found | deactivated caller addr found | jailed caller addr found
  | banned caller addr found | queued addr found | pending addr found =>
    have hv := h _ _ found
    exact hset hw hv
  | refused | pendingAbsent | height | time | registered | unregistered => exact h a w hw

end Qau.Validators
