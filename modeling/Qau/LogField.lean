import Mathlib

/-!
# Fields given by logarithm tables

A finite field is often implemented by two tables: the powers of a
generator and the exponents of the non-zero elements. Multiplication adds
exponents, division subtracts them. `LogTable` states what the tables have
to be for this to be field arithmetic, over any additive group `V`:

* multiplication by the generator is an additive map `step`,
* every non-zero element is some power of the generator, and `log` finds
  one,
* the powers repeat with period `order`.

The first section is about the multiplication by x that fills such a
table, and about counting its powers.

Nothing is said about polynomials, and exponents need not be unique: a
power `i` of the generator acts as `step^[i]`, and this action does not
depend on which exponent is taken (`step_iterate_congr`). `LogTable.field`
is the resulting field; its operations are the table look-ups themselves.
-/

namespace Qau

open Function

variable {w poly a i k n : Nat} {f : Nat → Nat}

/-! ## Doubling modulo a binary polynomial

Words of `w + 1` bits are polynomials over GF(2); multiplying by x shifts
the word and, when a bit is lost, adds the polynomial that is zero. -/

/-- Twice `a`, less the polynomial when the product has a bit `w + 1`. -/
def doubleMod (w poly a : Nat) : Nat :=
  bif a.testBit w then 2 * a ^^^ poly else 2 * a

theorem testBit_double (a i : Nat) : (2 * a).testBit (i + 1) = a.testBit i := by
  rw [Nat.testBit_succ, Nat.mul_div_cancel_left _ (by decide)]

/-- With a polynomial of degree `w + 1` the product stays a word. -/
theorem doubleMod_lt (hpoly : poly < 2 ^ (w + 2)) (htop : poly.testBit (w + 1))
    (ha : a < 2 ^ (w + 1)) : doubleMod w poly a < 2 ^ (w + 1) := by
  have hhigh : ∀ {i x k : Nat}, x < 2 ^ k → k ≤ i → x.testBit i = false := fun hx hk =>
    Nat.testBit_lt_two_pow (hx.trans_le (Nat.pow_le_pow_right (by decide) hk))
  apply Nat.lt_pow_two_of_testBit
  intro i hi
  obtain ⟨j, rfl⟩ : ∃ j, i = j + 1 := ⟨i - 1, by omega⟩
  rw [doubleMod]
  cases h : a.testBit w with
  | true =>
    rw [cond_true, Nat.testBit_xor, testBit_double]
    by_cases hj : j = w
    · rw [hj, h, htop]
      rfl
    · rw [hhigh ha (by omega), hhigh hpoly (by omega)]
      rfl
  | false =>
    rw [cond_false, testBit_double]
    by_cases hj : j = w
    · rw [hj, h]
    · exact hhigh ha (by omega)

theorem doubleMod_xor (w poly a b : Nat) :
    doubleMod w poly (a ^^^ b) = doubleMod w poly a ^^^ doubleMod w poly b := by
  have hdouble : 2 * (a ^^^ b) = 2 * a ^^^ 2 * b := by
    have h := @Nat.shiftLeft_xor_distrib 1 a b
    simpa [Nat.shiftLeft_eq, Nat.mul_comm] using h
  have hcancel : ∀ x y : Nat, x ^^^ poly ^^^ (y ^^^ poly) = x ^^^ y := by
    intro x y
    rw [Nat.xor_assoc, Nat.xor_comm y, ← Nat.xor_assoc poly, Nat.xor_self, Nat.zero_xor]
  simp only [doubleMod, Nat.testBit_xor, hdouble]
  cases a.testBit w <;> cases b.testBit w
  · rfl
  · exact Nat.xor_assoc ..
  · exact Nat.xor_right_comm ..
  · exact (hcancel ..).symm

theorem doubleMod_two_pow (h : i < w) : doubleMod w poly (2 ^ i) = 2 ^ (i + 1) := by
  rw [doubleMod, Nat.testBit_two_pow_of_ne (by omega), cond_false, Nat.pow_succ']

/-- The product of the words `a` and `b` when `f` multiplies by x: the sum of
`f^[i] b` over the bits `i` of `a`. -/
def mulBits (f : Nat → Nat) : (bits a b : Nat) → Nat
  | 0, _, _ => 0
  | bits + 1, a, b => (bif a.testBit 0 then b else 0) ^^^ mulBits f bits (a / 2) (f b)

section
variable {f : Nat → Nat} (hadd : ∀ a b, f (a ^^^ b) = f a ^^^ f b)
include hadd

theorem mulBits_apply (bits a b : Nat) : mulBits f bits a (f b) = f (mulBits f bits a b) := by
  have h0 : f 0 = 0 := by simpa using hadd 0 0
  induction bits generalizing a b with
  | zero => exact h0.symm
  | succ bits ih =>
    rw [mulBits, mulBits, hadd, ih]
    cases a.testBit 0 <;> simp [h0]

/-- Multiplying by a power of x is applying `f` that often. -/
theorem mulBits_iterate (bits a b n : Nat) :
    mulBits f bits a (f^[n] b) = f^[n] (mulBits f bits a b) := by
  induction n with
  | zero => rfl
  | succ n ih => rw [iterate_succ_apply', mulBits_apply hadd, ih, iterate_succ_apply']

end

theorem mulBits_two_pow {bits : Nat} (hf : ∀ i, i + 1 < bits + k → f (2 ^ i) = 2 ^ (i + 1))
    (ha : a < 2 ^ bits) : mulBits f bits a (2 ^ k) = a * 2 ^ k := by
  induction bits generalizing a k with
  | zero =>
    have h0 : a = 0 := by simpa using ha
    simp [mulBits, h0]
  | succ bits ih =>
    have hrest : mulBits f bits (a / 2) (f (2 ^ k)) = a / 2 * 2 ^ (k + 1) := by
      have ha' : a / 2 < 2 ^ bits := by
        omega
      cases bits with
      | zero =>
        have h0 : a / 2 = 0 := by simpa using ha'
        simp [mulBits, h0]
      | succ bits =>
        rw [hf k (by omega)]
        exact ih (fun i hi => hf i (by omega)) ha'
    have hlow : (bif a.testBit 0 then 2 ^ k else 0) = (a % 2) <<< k := by
      rcases Nat.mod_two_eq_zero_or_one a with h | h <;> simp [h, Nat.shiftLeft_eq]
    have hhigh : a / 2 * 2 ^ (k + 1) = (2 * (a / 2)) <<< k := by
      rw [Nat.shiftLeft_eq]
      ring
    have hsplit : a % 2 ^^^ 2 * (a / 2) = a := by
      apply Nat.eq_of_testBit_eq
      intro i
      cases i with
      | zero => simp
      | succ i =>
        have hbit : a % 2 / 2 = 0 := by omega
        rw [Nat.testBit_xor, testBit_double, Nat.testBit_succ, Nat.testBit_succ]
        simp
    rw [mulBits, hrest, hlow, hhigh, ← Nat.shiftLeft_xor_distrib, hsplit, Nat.shiftLeft_eq]

/-- `n` rounds of `f`. Unlike `f^[n]` it looks at the number before every
round, so that the kernel computes it eagerly; it stops at 0. -/
def rounds (f : Nat → Nat) : Nat → Nat → Nat
  | 0, a => a
  | _ + 1, 0 => 0
  | n + 1, a + 1 => rounds f n (f (a + 1))

theorem rounds_eq_iterate (h0 : f 0 = 0) (n a : Nat) : rounds f n a = f^[n] a := by
  induction n generalizing a with
  | zero => rfl
  | succ n ih =>
    cases a with
    | zero => rw [iterate_fixed h0, rounds]
    | succ a => rw [rounds, ih, iterate_succ_apply]

/-! ## Filling the tables -/

/-- A table filled in a loop holds, at every index the loop hits, what one of
the hitting rounds wrote. -/
theorem exists_of_foldl_update {K W : Type} [DecidableEq K] (key : Nat → K) (val : Nat → W)
    (init : K → W) {k : K} (h : ∃ i < n, key i = k) : ∃ i < n, key i = k ∧
      (List.range n).foldl (fun table i => update table (key i) (val i)) init k = val i := by
  induction n with
  | zero => obtain ⟨i, hi, -⟩ := h; omega
  | succ n ih =>
    rw [List.range_succ, List.foldl_append, List.foldl_cons, List.foldl_nil]
    by_cases hn : key n = k
    · exact ⟨n, n.lt_succ_self, hn, by rw [← hn, update_self]⟩
    · have hbefore : ∃ i < n, key i = k := by
        obtain ⟨i, hi, hk⟩ := h
        have hne : i ≠ n := fun heq => hn (heq ▸ hk)
        exact ⟨i, by omega, hk⟩
      obtain ⟨i, hi, hk, hval⟩ := ih hbefore
      exact ⟨i, by omega, hk, by rw [update_of_ne (Ne.symm hn), hval]⟩

/-- A point that returns after `n` steps and not after `n / p` steps, for any
prime divisor `p`, has minimal period `n`. -/
theorem minimalPeriod_eq_of_prime_divisors {α : Type} {f : α → α} {x : α}
    (hret : IsPeriodicPt f n x) (hearly : ∀ p, p.Prime → p ∣ n → ¬ IsPeriodicPt f (n / p) x) :
    minimalPeriod f x = n := by
  obtain ⟨c, hc⟩ := hret.minimalPeriod_dvd
  by_contra hne
  have hc1 : c ≠ 1 := fun h => hne (by rw [hc, h, Nat.mul_one])
  obtain ⟨p, hp, d, rfl⟩ := Nat.exists_prime_and_dvd hc1
  have hdvd : p ∣ n := ⟨minimalPeriod f x * d, by rw [hc]; ring⟩
  have hdiv : n / p = minimalPeriod f x * d := by
    rw [Nat.div_eq_iff_eq_mul_left hp.pos hdvd, hc]
    ring
  refine hearly p hp hdvd ?_
  rw [hdiv]
  exact (isPeriodicPt_minimalPeriod f x).mul_const d

/-- When the powers of the generator only repeat after as many steps as there
are non-zero elements, they are all of them. -/
theorem exists_iterate_eq {V : Type} [AddCommGroup V] [Fintype V] [DecidableEq V] (step : V →+ V)
    {one : V} (hcard : Fintype.card V = n + 1) (hone : one ≠ 0)
    (hperiod : minimalPeriod step one = n) {v : V} (hv : v ≠ 0) : ∃ i < n, step^[i] one = v := by
  have hret : step^[n] one = one := by
    have h := isPeriodicPt_minimalPeriod step one
    rwa [hperiod] at h
  have hne : ∀ i < n, step^[i] one ≠ 0 := by
    intro i hi h
    have hback : step^[n - i] (step^[i] one) = one := by
      rw [← iterate_add_apply, Nat.sub_add_cancel hi.le, hret]
    rw [h, iterate_map_zero] at hback
    exact hone hback.symm
  have hinj : Set.InjOn (fun i => step^[i] one) (Set.Iio n) := by
    have h := iterate_injOn_Iio_minimalPeriod (f := step) (x := one)
    rwa [hperiod] at h
  obtain ⟨i, hi, heq⟩ := Finset.surj_on_of_inj_on_of_card_le
    (s := Finset.range n) (t := Finset.univ.erase (0 : V)) (fun i _ => step^[i] one)
    (fun i hi => Finset.mem_erase.2 ⟨hne i (Finset.mem_range.1 hi), Finset.mem_univ _⟩)
    (fun i j hi hj h => hinj (Finset.mem_range.1 hi) (Finset.mem_range.1 hj) h)
    (by simp [hcard]) v (by simp [hv])
  exact ⟨i, Finset.mem_range.1 hi, heq.symm⟩

/-! ## The field -/

/-- Tables of powers and exponents for a generator of the non-zero elements
of `V`. -/
structure LogTable (V : Type) [AddCommGroup V] where
  /-- Multiplication by the generator. -/
  step : V →+ V
  one : V
  order : Nat
  log : V → Nat
  one_ne_zero : one ≠ 0
  step_order : step^[order] one = one
  log_lt : ∀ v, v ≠ 0 → log v < order
  step_log : ∀ v, v ≠ 0 → step^[log v] one = v

namespace LogTable

variable {V : Type} [AddCommGroup V] (t : LogTable V)

/-- The power `i` of the generator. -/
def exp (i : Nat) : V := t.step^[i] t.one

theorem exp_log {v : V} (h : v ≠ 0) : t.exp (t.log v) = v := t.step_log v h

theorem step_exp (i j : Nat) : t.step^[i] (t.exp j) = t.exp (i + j) :=
  (iterate_add_apply t.step i j t.one).symm

@[simp] theorem exp_zero : t.exp 0 = t.one := rfl

theorem exp_order : t.exp t.order = t.one := t.step_order

theorem exp_add_order (i : Nat) : t.exp (i + t.order) = t.exp i := by
  rw [← t.step_exp, t.exp_order]
  rfl

/-- No power vanishes: going on from it leads back to the unit. -/
theorem exp_ne_zero (i : Nat) : t.exp i ≠ 0 := by
  intro h
  have hback : t.step^[i * t.order - i] (t.exp i) = t.one := by
    rw [t.step_exp]
    rcases Nat.eq_zero_or_pos t.order with h0 | hpos
    · exact absurd (t.log_lt t.one t.one_ne_zero) (by omega)
    have hle : i ≤ i * t.order := Nat.le_mul_of_pos_right i hpos
    rw [Nat.sub_add_cancel hle]
    clear hle h
    induction i with
    | zero => simp
    | succ i ih => rw [Nat.succ_mul, t.exp_add_order, ih]
  rw [h, iterate_map_zero] at hback
  exact t.one_ne_zero hback.symm

/-- What a power does to an element depends on the power only, not on the
exponent it is given by. -/
theorem step_iterate_congr {j : Nat} (h : t.exp i = t.exp j) (v : V) :
    t.step^[i] v = t.step^[j] v := by
  by_cases hv : v = 0
  · simp [hv]
  · rw [← t.exp_log hv, t.step_exp, t.step_exp, Nat.add_comm i, Nat.add_comm j,
      ← t.step_exp, ← t.step_exp, h]

variable [DecidableEq V]

/-- The table product. -/
def mul (a b : V) : V :=
  if a = 0 ∨ b = 0 then 0 else t.exp (t.log a + t.log b)

/-- The table inverse. -/
def inv (a : V) : V :=
  if a = 0 then 0 else t.exp (t.order - t.log a)

@[simp] theorem mul_zero (a : V) : t.mul a 0 = 0 := by simp [mul]

@[simp] theorem zero_mul (b : V) : t.mul 0 b = 0 := by simp [mul]

theorem exp_mul (i : Nat) (b : V) : t.mul (t.exp i) b = t.step^[i] b := by
  by_cases hb : b = 0
  · simp [hb]
  · have hi := t.exp_ne_zero i
    rw [mul, if_neg (by simp [hi, hb]), ← t.step_exp, t.exp_log hb]
    exact t.step_iterate_congr (t.exp_log hi) b

theorem exp_mul_exp (i j : Nat) : t.mul (t.exp i) (t.exp j) = t.exp (i + j) := by
  rw [t.exp_mul, t.step_exp]

theorem mul_comm (a b : V) : t.mul a b = t.mul b a := by
  simp only [mul, or_comm, Nat.add_comm]

theorem one_mul (b : V) : t.mul t.one b = b := t.exp_mul 0 b

theorem mul_add (a b c : V) : t.mul a (b + c) = t.mul a b + t.mul a c := by
  by_cases ha : a = 0
  · simp [ha]
  · rw [← t.exp_log ha]
    simp only [t.exp_mul, iterate_map_add]

theorem mul_assoc (a b c : V) : t.mul (t.mul a b) c = t.mul a (t.mul b c) := by
  by_cases ha : a = 0
  · simp [ha]
  by_cases hb : b = 0
  · simp [hb]
  rw [← t.exp_log ha, ← t.exp_log hb, t.exp_mul_exp]
  simp only [t.exp_mul, iterate_add_apply]

theorem mul_inv_cancel {a : V} (ha : a ≠ 0) : t.mul a (t.inv a) = t.one := by
  have hlt := t.log_lt a ha
  calc t.mul a (t.inv a)
      = t.mul (t.exp (t.log a)) (t.exp (t.order - t.log a)) := by
        rw [inv, if_neg ha, t.exp_log ha]
    _ = t.one := by rw [t.exp_mul_exp, Nat.add_sub_cancel' hlt.le, t.exp_order]

theorem mul_inv_eq_exp {a b : V} (ha : a ≠ 0) (hb : b ≠ 0)
    (hk : k + t.log b = t.log a ∨ k + t.log b = t.log a + t.order) :
    t.mul a (t.inv b) = t.exp k := by
  have hkb : t.mul (t.exp k) b = a := by
    calc t.mul (t.exp k) b = t.exp (k + t.log b) := by
          rw [← t.exp_mul_exp, t.exp_log hb]
      _ = t.exp (t.log a) := by
          rcases hk with hk | hk
          · rw [hk]
          · rw [hk, t.exp_add_order]
      _ = a := t.exp_log ha
  rw [← hkb, t.mul_assoc, t.mul_inv_cancel hb, t.mul_comm, t.one_mul]

/-- The field the tables implement. -/
abbrev field : Field V :=
  { (inferInstance : AddCommGroup V) with
    mul := t.mul
    one := t.one
    inv := t.inv
    left_distrib := t.mul_add
    right_distrib := fun a b c => by
      show t.mul (a + b) c = t.mul a c + t.mul b c
      rw [t.mul_comm, t.mul_add, t.mul_comm c, t.mul_comm c]
    zero_mul := t.zero_mul
    mul_zero := t.mul_zero
    mul_assoc := t.mul_assoc
    one_mul := t.one_mul
    mul_one := fun a => by
      show t.mul a t.one = a
      rw [t.mul_comm, t.one_mul]
    mul_comm := t.mul_comm
    exists_pair_ne := ⟨0, t.one, t.one_ne_zero.symm⟩
    mul_inv_cancel := fun _ => t.mul_inv_cancel
    inv_zero := if_pos rfl
    nnqsmul := _
    qsmul := _ }

end LogTable

end Qau
