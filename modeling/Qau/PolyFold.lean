import Mathlib

/-!
# Folding a polynomial

`P(x) = E(x²) + x · O(x²)` with the coefficients of even and of odd degree.
A fold with `α` is `E + α O`: half the degree, and its values at squares are
computed from the values of `P` at `x` and `-x`.
-/

namespace Qau.PolyFold

open Polynomial

section Semiring

variable {R : Type*} [CommSemiring R]

/-- The fold of a polynomial with the challenge `α`. -/
noncomputable def fold (α : R) (P : R[X]) : R[X] := contract 2 P + C α * contract 2 P.divX

@[simp]
theorem coeff_fold (α : R) (P : R[X]) (n : Nat) :
    (fold α P).coeff n = P.coeff (2 * n) + α * P.coeff (2 * n + 1) := by
  rw [fold, coeff_add, coeff_C_mul, coeff_contract two_ne_zero, coeff_contract two_ne_zero, coeff_divX,
    Nat.mul_comm]

theorem degree_fold_lt {α : R} {P : R[X]} {d : Nat} (h : P.degree < d) :
    (fold α P).degree < ((d + 1) / 2 : Nat) := by
  rw [degree_lt_iff_coeff_zero] at h ⊢
  intro m hm
  rw [coeff_fold, h _ (by omega), h _ (by omega), mul_zero, add_zero]

theorem fold_X_pow (α : R) (m : Nat) : fold α (X ^ (2 * m) : R[X]) = X ^ m := by
  ext n
  rw [coeff_fold, coeff_X_pow, coeff_X_pow, coeff_X_pow, if_neg (by omega : ¬ 2 * n + 1 = 2 * m),
    mul_zero, add_zero]
  exact if_congr (by omega) rfl rfl

theorem eq_even_add_odd (P : R[X]) :
    P = expand R 2 (contract 2 P) + X * expand R 2 (contract 2 P.divX) := by
  ext n
  rw [coeff_add, coeff_expand two_pos]
  cases n with
  | zero => rw [coeff_X_mul_zero, add_zero, if_pos (dvd_zero 2), coeff_contract two_ne_zero,
      Nat.zero_div, Nat.zero_mul]
  | succ n =>
    rw [coeff_X_mul, coeff_expand two_pos, coeff_contract two_ne_zero, coeff_contract two_ne_zero,
      coeff_divX]
    rcases Nat.even_or_odd' n with ⟨m, rfl | rfl⟩
    · rw [if_neg (by omega), if_pos (by omega), zero_add, Nat.mul_div_cancel_left m two_pos,
        Nat.mul_comm m 2]
    · rw [if_pos (by omega), if_neg (by omega), add_zero, Nat.div_mul_cancel (by omega)]

end Semiring

/-- A fold from the values at a point and its negative. -/
theorem eval_fold {K : Type*} [Field K] (h2 : (2 : K) ≠ 0) (α : K) (P : K[X]) {x : K} (hx : x ≠ 0) :
    (fold α P).eval (x ^ 2) =
      (P.eval x + P.eval (-x)) * 2⁻¹ + α * ((P.eval x - P.eval (-x)) * (2⁻¹ * x⁻¹)) := by
  have heval : ∀ y, P.eval y =
      (contract 2 P).eval (y ^ 2) + y * (contract 2 P.divX).eval (y ^ 2) := by
    intro y
    conv_lhs => rw [eq_even_add_odd P]
    rw [eval_add, eval_mul, eval_X, expand_eval, expand_eval]
  rw [heval x, heval (-x), neg_sq, fold, eval_add, eval_mul, eval_C]
  field_simp
  ring

end Qau.PolyFold
