import Mathlib

/-!
# The gas meter

`GasMeter` of `qvm/gas.go`, without the access list, which the state database
keeps. A charge beyond the limit takes all that is left.
-/

namespace Qau.Qvm

inductive GasError where
  | outOfGas | gasOverflow
deriving DecidableEq

structure GasMeter where
  limit : UInt64
  used : UInt64 := 0
  refund : UInt64 := 0
deriving DecidableEq

namespace GasMeter

variable {g : GasMeter} {amount : UInt64}

def consume (g : GasMeter) (amount : UInt64) : Except GasError Unit × GasMeter :=
  if g.used + amount < g.used then (.error .gasOverflow, g)
  else if g.limit < g.used + amount then (.error .outOfGas, { g with used := g.limit })
  else (.ok (), { g with used := g.used + amount })

def remaining (g : GasMeter) : UInt64 := if g.limit ≤ g.used then 0 else g.limit - g.used

theorem toNat_remaining (g : GasMeter) : g.remaining.toNat = g.limit.toNat - g.used.toNat := by
  unfold remaining
  split_ifs with h
  · have := UInt64.le_iff_toNat_le.mp h
    simp only [UInt64.toNat_zero]
    omega
  · exact UInt64.toNat_sub_of_le _ _ (UInt64.le_of_lt (UInt64.not_le.mp h))

theorem consume_of_le (h : g.used.toNat + amount.toNat ≤ g.limit.toNat) :
    ∃ g', g.consume amount = (.ok (), g') ∧ g'.limit = g.limit ∧
      g'.used.toNat = g.used.toNat + amount.toNat := by
  have hsum : (g.used + amount).toNat = g.used.toNat + amount.toNat := by
    rw [UInt64.toNat_add, Nat.mod_eq_of_lt (h.trans_lt g.limit.toNat_lt)]
  refine ⟨{ g with used := g.used + amount }, ?_, rfl, hsum⟩
  rw [consume, if_neg (by rw [UInt64.lt_iff_toNat_lt]; omega),
    if_neg (by rw [UInt64.lt_iff_toNat_lt]; omega)]

theorem consume_of_lt (h : g.limit.toNat < g.used.toNat + amount.toNat) :
    ∃ e g', g.consume amount = (.error e, g') := by
  unfold consume
  split_ifs with hwrap hlimit
  · exact ⟨_, _, rfl⟩
  · exact ⟨_, _, rfl⟩
  · rw [UInt64.lt_iff_toNat_lt, UInt64.toNat_add] at hwrap hlimit
    have := g.used.toNat_lt
    have := amount.toNat_lt
    omega

end GasMeter

end Qau.Qvm
