import Qau.GasMeter

/-!
# The gas of a call

`CalculateCallGas` of `qvm/gas.go` and the charges of `opCall`, `opCallCode`,
`opDelegateCall`, `opStaticCall` and `opAuthCall` on the way to the child
frame. The checks in between that do not look at gas (balance, depth, journal)
are taken to pass.

The stipend is added to what the child gets and the sum is consumed from the
caller's meter, so the caller pays for it; where a 64th of what is left does
not cover it, the charge fails and takes everything.
-/

namespace Qau.Qvm

/-- The fields of `GasTable` that calls read. -/
structure GasTable where
  call : UInt64
  callCold : UInt64
  callValue : UInt64
  callNewAccount : UInt64

def defaultGasTable : GasTable := ⟨100, 2600, 9000, 25000⟩

def gasCallStipend : UInt64 := 2300

def maxSafeGas : UInt64 := 0x7fffffffffffffff

/-- The fixed cost, `none` where a sum would pass `maxSafeGas`. -/
def GasTable.callCost (gasTable : GasTable) (hasValue isNewAccount isCold : Bool) :
    Option UInt64 :=
  let cost := if isCold then gasTable.callCold else gasTable.call
  if hasValue && maxSafeGas - gasTable.callValue < cost then none
  else
    let cost := if hasValue then cost + gasTable.callValue else cost
    if isNewAccount && hasValue && maxSafeGas - gasTable.callNewAccount < cost then none
    else
      let cost := if isNewAccount && hasValue then cost + gasTable.callNewAccount else cost
      some (if maxSafeGas < cost then maxSafeGas else cost)

/-- `CalculateCallGas`: the fixed cost and the gas for the child. -/
def calculateCallGas (gasTable : GasTable) (availableGas requestedGas : UInt64)
    (hasValue isNewAccount isCold : Bool) : UInt64 × UInt64 :=
  match gasTable.callCost hasValue isNewAccount isCold with
  | none => (maxSafeGas, 0)
  | some cost =>
    if availableGas ≤ cost then (cost, 0)
    else
      let gasToSend := availableGas - cost
      let gasToSend := if maxSafeGas < gasToSend then maxSafeGas else gasToSend
      let maxGas := gasToSend - gasToSend / 64
      let requestedGas := if maxGas < requestedGas then maxGas else requestedGas
      if hasValue then
        if maxSafeGas - gasCallStipend < requestedGas then (cost, maxSafeGas)
        else (cost, requestedGas + gasCallStipend)
      else (cost, requestedGas)

inductive CallOp where
  | call | callCode | delegateCall | staticCall | authCall
deriving DecidableEq

/-- What the gas of a call depends on besides the meter. -/
structure CallSite where
  op : CallOp
  /-- The gas operand, of which `ToUint64` takes the low 64 bits. -/
  gasWord : BitVec 256
  /-- The value operand; `DELEGATECALL` and `STATICCALL` have none. -/
  value : BitVec 256 := 0
  exists? : Bool := true
  warm : Bool := true
  /-- The target has code and is on the call stack already. -/
  reentrant : Bool := false
  memExpansionCost : UInt64 := 0

namespace CallSite

def takesValue (c : CallSite) : Bool := c.op ≠ .delegateCall && c.op ≠ .staticCall

def hasValue (c : CallSite) : Bool := c.takesValue && c.value ≠ 0

def isNewAccount (c : CallSite) : Bool := c.takesValue && !c.exists?

def gas (c : CallSite) : UInt64 := UInt64.ofNat c.gasWord.toNat

def reentrancyGuardGas (c : CallSite) : UInt64 := if c.reentrant then 2300 else 0

end CallSite

/-- How the opcode goes on: with an error of the frame, with a zero on the
stack, or into a child with so much gas. -/
inductive CallOutcome where
  | aborts (e : GasError) | pushesZero | forwards (gas : UInt64)
deriving DecidableEq

/-- A charge that is made only if it is not zero. -/
def GasMeter.consumeSome (g : GasMeter) (amount : UInt64) : Except GasError Unit × GasMeter :=
  if 0 < amount then g.consume amount else (.ok (), g)

/-- The charges of a call up to the child frame. -/
def CallSite.forward (c : CallSite) (gasTable : GasTable) (g : GasMeter) :
    CallOutcome × GasMeter :=
  if g.remaining < c.memExpansionCost then (.aborts .outOfGas, g)
  else
    let available := g.remaining - c.memExpansionCost
    if available < c.reentrancyGuardGas then (.pushesZero, g)
    else
      let available := available - c.reentrancyGuardGas
      let (callCost, callGas) :=
        calculateCallGas gasTable available c.gas c.hasValue c.isNewAccount (!c.warm)
      -- `opDelegateCall` leaves this check to the meter
      if c.op ≠ .delegateCall ∧ available < callCost then (.pushesZero, g)
      else
        match g.consume callCost with
        | (.error e, g) => (.aborts e, g)
        | (.ok (), g) =>
          match g.consumeSome c.memExpansionCost with
          | (.error e, g) => (.aborts e, g)
          | (.ok (), g) =>
            match g.consumeSome c.reentrancyGuardGas with
            | (.error _, g) => (.pushesZero, g)
            | (.ok (), g) =>
              match g.consume callGas with
              | (.error _, g) => (.pushesZero, g)
              | (.ok (), g) => (.forwards callGas, g)

/-- The fixed cost of the default table. -/
def callBase (hasValue isNewAccount isCold : Bool) : Nat :=
  (if isCold then 2600 else 100) + (if hasValue then 9000 else 0) +
    (if isNewAccount && hasValue then 25000 else 0)

/-- The costs of a call before any gas goes to the child. -/
def CallSite.fixedCost (c : CallSite) : Nat :=
  callBase c.hasValue c.isNewAccount (!c.warm) + c.memExpansionCost.toNat +
    c.reentrancyGuardGas.toNat

/-- The child gets at most what was asked for and all but a 64th of what the
fixed costs leave, with the stipend on top if value goes along, and the caller
pays for all of it but the stipend. -/
def Fair (c : CallSite) (g : GasMeter) (r : CallOutcome × GasMeter) : Prop :=
  let left := g.remaining.toNat - c.fixedCost
  ∃ child sent : UInt64, r.1 = .forwards child ∧
    child.toNat = sent.toNat + (if c.hasValue then gasCallStipend.toNat else 0) ∧
    sent.toNat ≤ c.gasWord.toNat ∧ sent.toNat ≤ left - left / 64 ∧
    r.2.used.toNat = g.used.toNat + c.fixedCost + sent.toNat

variable {c : CallSite} {g : GasMeter}

/-- With the default table no sum passes `maxSafeGas`. -/
theorem callCost_default (hasValue isNewAccount isCold : Bool) :
    ∃ cost, defaultGasTable.callCost hasValue isNewAccount isCold = some cost ∧
      cost.toNat = callBase hasValue isNewAccount isCold := by
  cases hasValue <;> cases isNewAccount <;> cases isCold <;> exact ⟨_, rfl, rfl⟩

theorem fst_calculateCallGas (available requested : UInt64) (hasValue isNewAccount isCold : Bool) :
    (calculateCallGas defaultGasTable available requested hasValue isNewAccount isCold).1.toNat =
      callBase hasValue isNewAccount isCold := by
  obtain ⟨cost, hcost, hval⟩ := callCost_default hasValue isNewAccount isCold
  rw [← hval, calculateCallGas, hcost]
  dsimp only
  split_ifs <;> rfl

theorem toNat_share (n : UInt64) : (n - n / 64).toNat = n.toNat - n.toNat / 64 := by
  have hdiv : (n / 64).toNat = n.toNat / 64 := UInt64.toNat_div ..
  have hle : n / 64 ≤ n := by
    rw [UInt64.le_iff_toNat_le, hdiv]
    exact Nat.div_le_self _ _
  rw [UInt64.toNat_sub_of_le _ _ hle, hdiv]

theorem snd_calculateCallGas (available requested : UInt64) (isNewAccount isCold : Bool)
    (h : callBase false isNewAccount isCold ≤ available.toNat) :
    let sent := (calculateCallGas defaultGasTable available requested false isNewAccount isCold).2
    let left := available.toNat - callBase false isNewAccount isCold
    sent.toNat ≤ requested.toNat ∧ sent.toNat ≤ left - left / 64 := by
  obtain ⟨cost, hcost, hval⟩ := callCost_default false isNewAccount isCold
  rw [← hval] at h ⊢
  have hleft := UInt64.toNat_sub_of_le _ _ (UInt64.le_iff_toNat_le.mpr h)
  rw [calculateCallGas, hcost, ← hleft]
  simp only [Bool.false_eq_true, if_false, UInt64.lt_iff_toNat_lt]
  split_ifs with hle hbig hreq hreq
  · exact ⟨Nat.zero_le _, Nat.zero_le _⟩
  all_goals
    simp only [toNat_share] at hreq ⊢
    constructor <;> omega

/-- What `CalculateCallGas` gives the child. -/
def CallSite.child (c : CallSite) (g : GasMeter) : UInt64 :=
  (calculateCallGas defaultGasTable (g.remaining - c.memExpansionCost - c.reentrancyGuardGas) c.gas
    c.hasValue c.isNewAccount (!c.warm)).2

theorem consumeSome_of_le {amount : UInt64} (h : g.used.toNat + amount.toNat ≤ g.limit.toNat) :
    ∃ g', g.consumeSome amount = (.ok (), g') ∧ g'.limit = g.limit ∧
      g'.used.toNat = g.used.toNat + amount.toNat := by
  unfold GasMeter.consumeSome
  split_ifs with h0
  · exact GasMeter.consume_of_le h
  · rw [UInt64.lt_iff_toNat_lt, UInt64.toNat_zero] at h0
    exact ⟨g, rfl, rfl, by omega⟩

theorem toNat_available (h : c.fixedCost ≤ g.remaining.toNat) :
    (g.remaining - c.memExpansionCost - c.reentrancyGuardGas).toNat =
        g.remaining.toNat - c.memExpansionCost.toNat - c.reentrancyGuardGas.toNat ∧
      (g.remaining - c.memExpansionCost).toNat =
        g.remaining.toNat - c.memExpansionCost.toNat := by
  unfold CallSite.fixedCost at h
  have hmem := UInt64.toNat_sub_of_le g.remaining c.memExpansionCost
    (UInt64.le_iff_toNat_le.mpr (by omega))
  refine ⟨?_, hmem⟩
  rw [UInt64.toNat_sub_of_le _ _ (UInt64.le_iff_toNat_le.mpr (by omega)), hmem]

/-- With enough gas for the fixed costs the child is reached and paid for in
full, or its gas is more than what is left. -/
theorem forward_spec (h : c.fixedCost ≤ g.remaining.toNat) :
    ∃ g', c.forward defaultGasTable g = (.forwards (c.child g), g') ∧
        g'.used.toNat = g.used.toNat + c.fixedCost + (c.child g).toNat ∨
      c.forward defaultGasTable g = (.pushesZero, g') ∧
        g.remaining.toNat < c.fixedCost + (c.child g).toNat := by
  obtain ⟨havail, hmem⟩ := toNat_available h
  have hrem := g.toNat_remaining
  have hcost := fst_calculateCallGas (g.remaining - c.memExpansionCost - c.reentrancyGuardGas)
    c.gas c.hasValue c.isNewAccount (!c.warm)
  unfold CallSite.forward CallSite.child
  unfold CallSite.fixedCost at h ⊢
  rw [if_neg (by rw [UInt64.lt_iff_toNat_lt]; omega)]
  dsimp only
  rw [if_neg (by rw [UInt64.lt_iff_toNat_lt]; omega)]
  generalize calculateCallGas .. = r at hcost ⊢
  obtain ⟨cost, child⟩ := r
  dsimp only at hcost ⊢
  rw [if_neg (by rw [UInt64.lt_iff_toNat_lt]; omega)]
  have hpos : 0 < callBase c.hasValue c.isNewAccount (!c.warm) := by
    unfold callBase
    split_ifs <;> omega
  obtain ⟨g₁, h₁, hl₁, hu₁⟩ := GasMeter.consume_of_le
    (show g.used.toNat + cost.toNat ≤ g.limit.toNat by omega)
  obtain ⟨g₂, h₂, hl₂, hu₂⟩ := consumeSome_of_le
    (show g₁.used.toNat + c.memExpansionCost.toNat ≤ g₁.limit.toNat by rw [hl₁]; omega)
  obtain ⟨g₃, h₃, hl₃, hu₃⟩ := consumeSome_of_le
    (show g₂.used.toNat + c.reentrancyGuardGas.toNat ≤ g₂.limit.toNat by rw [hl₂, hl₁]; omega)
  simp only [h₁, h₂, h₃]
  rw [hl₂, hl₁] at hl₃
  by_cases hfits : g₃.used.toNat + child.toNat ≤ g₃.limit.toNat
  · obtain ⟨g₄, h₄, -, hu₄⟩ := GasMeter.consume_of_le hfits
    rw [h₄]
    exact ⟨g₄, .inl ⟨rfl, by omega⟩⟩
  · obtain ⟨e, g₄, h₄⟩ := GasMeter.consume_of_lt (not_le.mp hfits)
    rw [hl₃] at hfits
    rw [h₄]
    exact ⟨g₄, .inr ⟨rfl, by omega⟩⟩

/-- Without value the child's gas is within what was asked for and what is left. -/
theorem child_le (hv : c.hasValue = false) (h : c.fixedCost ≤ g.remaining.toNat) :
    let left := g.remaining.toNat - c.fixedCost
    (c.child g).toNat ≤ c.gasWord.toNat ∧ (c.child g).toNat ≤ left - left / 64 := by
  obtain ⟨havail, -⟩ := toNat_available h
  unfold CallSite.fixedCost CallSite.child at *
  rw [hv] at h ⊢
  obtain ⟨hreq, hshare⟩ := snd_calculateCallGas _ c.gas c.isNewAccount (!c.warm)
    (show _ ≤ (g.remaining - c.memExpansionCost - c.reentrancyGuardGas).toNat by omega)
  refine ⟨hreq.trans ?_, by omega⟩
  exact Nat.mod_le _ _

/-- A call with enough gas for its fixed costs is fair unless it carries
value: then the caller is charged for the stipend as well. -/
theorem forward_fair_iff (c : CallSite) (g : GasMeter) (h : c.fixedCost ≤ g.remaining.toNat) :
    Fair c g (c.forward defaultGasTable g) ↔ c.hasValue = false := by
  obtain ⟨g', ⟨hout, hused⟩ | ⟨hout, hlack⟩⟩ := forward_spec h
  all_goals rw [hout]; constructor
  · rintro ⟨child, sent, hchild, hsum, -, -, hpaid⟩
    obtain rfl := CallOutcome.forwards.inj hchild
    by_contra hv
    rw [if_pos (by simpa using hv)] at hsum
    have hstipend : gasCallStipend.toNat = 2300 := rfl
    dsimp only at hpaid
    omega
  · intro hv
    obtain ⟨hreq, hshare⟩ := child_le hv h
    exact ⟨c.child g, c.child g, rfl, by simp [hv], hreq, hshare, hused⟩
  · rintro ⟨child, sent, hchild, -⟩
    cases hchild
  · intro hv
    have hshare := (child_le hv h).2
    omega

/-- A plain call of a contract in the access list. -/
theorem forward_fair_staticCall : Fair ⟨.staticCall, 5000, 0, true, true, false, 0⟩ ⟨10000, 0, 0⟩
      (.forwards 5000, ⟨10000, 5100, 0⟩) := by
  have hfair := (forward_fair_iff ⟨.staticCall, 5000, 0, true, true, false, 0⟩ ⟨10000, 0, 0⟩
    (by decide)).mpr rfl
  exact hfair

/-- One unit of value with all gas asked for: with 11400 gas the charge for the
stipend fails and takes the 2300 that the fixed costs have left; with 300000
the child is reached and the caller pays for the stipend. -/
theorem forward_unfair_value :
    (⟨.call, 1000000, 1, true, true, false, 0⟩ : CallSite).forward defaultGasTable ⟨11400, 0, 0⟩ =
        (.pushesZero, ⟨11400, 11400, 0⟩) ∧
      (⟨.call, 1000000, 1, true, true, false, 0⟩ : CallSite).forward defaultGasTable ⟨300000, 0, 0⟩ =
        (.forwards 288655, ⟨300000, 297755, 0⟩) ∧
      ¬ Fair ⟨.call, 1000000, 1, true, true, false, 0⟩ ⟨11400, 0, 0⟩
        (.pushesZero, ⟨11400, 11400, 0⟩) ∧
      ¬ Fair ⟨.call, 1000000, 1, true, true, false, 0⟩ ⟨300000, 0, 0⟩
        (.forwards 288655, ⟨300000, 297755, 0⟩) := by
  refine ⟨by decide, by decide, ?_, ?_⟩
  · rintro ⟨child, sent, hout, -⟩
    cases hout
  · rintro ⟨child, sent, hout, hchild, -, -, hused⟩
    cases hout
    have hpaid : 297755 = 0 + 9100 + sent.toNat := hused
    have hsent : 288655 = sent.toNat + 2300 := hchild
    omega

end Qau.Qvm
