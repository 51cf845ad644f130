import Qau.LogField

/-!
# Arithmetic in GF(2^16)

The tables of `gf16.go` and the operations that read them, under the
source's names. Elements are `uint16` words; addition is exclusive or and
has no function of its own in the source.

The source builds the table of powers by repeated doubling modulo
x^16 + x^12 + x^3 + x + 1, without a proof that this reaches every word.
`gf16Next_period` is that proof: doubling returns to 1 after 65535 rounds
and not earlier, so the words form a field (`Gf16`) in which `gf16Mul`
and `gf16Div` are the field operations.
-/

namespace Qau

open Function

/-! ## The tables -/

def gf16Poly : UInt32 := 0x1100B

def gf16Order : Nat := 65535

/-- One round of the loop that fills the table of powers: multiply by x and
reduce. -/
def gf16Next (prev : UInt16) : UInt16 :=
  let prod := prev.toUInt32 <<< 1
  (if prod &&& ((1 : UInt32) <<< 16) ≠ 0 then prod ^^^ gf16Poly else prod).toUInt16

/-- The table of powers, doubled so that a sum of two logarithms is a valid
index. -/
def gf16Exp (i : Nat) : UInt16 :=
  gf16Next^[if i < gf16Order then i else i - gf16Order] 1

/-- The table of logarithms; the entry of 0 is never written. -/
def gf16Log : UInt16 → UInt16 :=
  (List.range gf16Order).foldl
    (fun log i => update log (gf16Exp i) (UInt16.ofNat i)) (fun _ => 0)

/-! ## The operations -/

inductive Gf16Error where
  | divisionByZero
  | inverseOfZero
  deriving DecidableEq, Repr

def gf16Mul (a b : UInt16) : UInt16 :=
  if a = 0 ∨ b = 0 then 0
  else gf16Exp ((gf16Log a).toNat + (gf16Log b).toNat)

def gf16Div (a b : UInt16) : Except Gf16Error UInt16 :=
  if a = 0 then .ok 0
  else if b = 0 then .error .divisionByZero
  else
    let logDiff : Int := (gf16Log a).toNat - (gf16Log b).toNat
    .ok (gf16Exp (if logDiff < 0 then logDiff + gf16Order else logDiff).toNat)

/-! ## The powers of x -/

theorem toNat_gf16Next (a : UInt16) : (gf16Next a).toNat = doubleMod 15 0x1100B a.toNat := by
  have hlt : doubleMod 15 0x1100B a.toNat < 2 ^ 16 :=
    doubleMod_lt (by decide) (by decide) a.toNat_lt
  have hprod : (a.toUInt32 <<< 1).toNat = 2 * a.toNat := by
    have ha := a.toNat_lt
    simp [UInt32.toNat_shiftLeft, Nat.shiftLeft_eq]
    omega
  have hbit : (a.toUInt32 <<< 1 &&& ((1 : UInt32) <<< 16) ≠ 0) ↔ a.toNat.testBit 15 = true := by
    rw [ne_eq, ← UInt32.toNat_inj, UInt32.toNat_and, hprod]
    show ¬ (2 * a.toNat &&& 2 ^ 16 = 0) ↔ _
    rw [Nat.and_two_pow, testBit_double]
    simp
  by_cases h : a.toNat.testBit 15 = true
  · rw [gf16Next, if_pos (hbit.2 h), UInt32.toNat_toUInt16, UInt32.toNat_xor, hprod]
    rw [doubleMod, h] at hlt ⊢
    exact Nat.mod_eq_of_lt hlt
  · rw [gf16Next, if_neg (mt hbit.1 h), UInt32.toNat_toUInt16, hprod]
    rw [doubleMod, Bool.eq_false_iff.2 h] at hlt ⊢
    exact Nat.mod_eq_of_lt hlt

theorem gf16Next_xor (a b : UInt16) : gf16Next (a ^^^ b) = gf16Next a ^^^ gf16Next b := by
  apply UInt16.toNat_inj.1
  simp only [toNat_gf16Next, UInt16.toNat_xor, doubleMod_xor]

theorem toNat_gf16Next_iterate (n : Nat) (a : UInt16) :
    (gf16Next^[n] a).toNat = (doubleMod 15 0x1100B)^[n] a.toNat := by
  induction n generalizing a with
  | zero => rfl
  | succ n ih => rw [iterate_succ_apply, iterate_succ_apply, ih, toNat_gf16Next]

theorem gf16Next_257 : gf16Next^[257] 1 = 0x165e := by
  apply UInt16.toNat_inj.1
  rw [toNat_gf16Next_iterate, ← rounds_eq_iterate (by decide)]
  decide +kernel

/-- Multiplication by the power 257 of x. -/
def gf16Skip (a : Nat) : Nat := mulBits (doubleMod 15 0x1100B) 16 a 0x165e

theorem toNat_gf16Next_skip (m : Nat) (a : UInt16) :
    (gf16Next^[257 * m] a).toNat = rounds gf16Skip m a.toNat := by
  have hskip : ∀ a : UInt16, (gf16Next^[257] a).toNat = gf16Skip a.toNat := by
    intro a
    have h257 : (doubleMod 15 0x1100B)^[257] 1 = 0x165e := by
      have h := toNat_gf16Next_iterate 257 1
      rw [gf16Next_257] at h
      exact h.symm
    have hone : mulBits (doubleMod 15 0x1100B) 16 a.toNat 1 = a.toNat := by
      have h := mulBits_two_pow (f := doubleMod 15 0x1100B) (k := 0)
        (fun i hi => doubleMod_two_pow (by omega)) a.toNat_lt
      simpa using h
    rw [gf16Skip, ← h257, mulBits_iterate (doubleMod_xor _ _), hone, toNat_gf16Next_iterate]
  rw [rounds_eq_iterate (by decide), iterate_mul]
  induction m generalizing a with
  | zero => rfl
  | succ m ih =>
    rw [iterate_succ_apply gf16Skip, ← hskip, ← ih]
    rfl

/-! The order of the group is 3 · 5 · 17 · 257. The walk round the group
passes the powers 65535 / 17, 65535 / 5 and 65535 / 3 on its way. -/

theorem gf16Next_255 : gf16Next^[255] 1 = 0x8d92 := by
  apply UInt16.toNat_inj.1
  rw [toNat_gf16Next_iterate, ← rounds_eq_iterate (by decide)]
  decide +kernel

theorem gf16Next_3855 : gf16Next^[257 * 15] 1 = 0x4d78 := by
  apply UInt16.toNat_inj.1
  rw [toNat_gf16Next_skip]
  decide +kernel

theorem gf16Next_13107 : gf16Next^[257 * 51] 1 = 0x1ce8 := by
  apply UInt16.toNat_inj.1
  rw [toNat_gf16Next_skip]
  decide +kernel

theorem gf16Next_21845 : gf16Next^[257 * 85] 1 = 0x15e := by
  apply UInt16.toNat_inj.1
  rw [toNat_gf16Next_skip]
  decide +kernel

theorem gf16Next_65535 : gf16Next^[257 * 255] 1 = 1 := by
  apply UInt16.toNat_inj.1
  rw [toNat_gf16Next_skip]
  decide +kernel

/-- x generates all non-zero words: its powers repeat after 65535 rounds and
not before. -/
theorem gf16Next_period : minimalPeriod gf16Next 1 = gf16Order := by
  apply minimalPeriod_eq_of_prime_divisors gf16Next_65535
  intro p hp hdvd hret
  have hfac : p ∣ 3 * (5 * (17 * 257)) := hdvd
  simp only [hp.dvd_mul] at hfac
  rcases hfac with h | h | h | h <;>
    obtain rfl := (Nat.prime_dvd_prime_iff_eq hp (by norm_num)).1 h
  · exact absurd (hret.eq.symm.trans gf16Next_21845) (by decide)
  · exact absurd (hret.eq.symm.trans gf16Next_13107) (by decide)
  · exact absurd (hret.eq.symm.trans gf16Next_3855) (by decide)
  · exact absurd (hret.eq.symm.trans gf16Next_255) (by decide)

theorem gf16Next_order : gf16Next^[gf16Order] 1 = 1 := gf16Next_65535

/-! ## The field -/

/-- The words as a vector space over the two-element field: addition is
exclusive or. -/
@[ext] structure Gf16 where
  word : UInt16
  deriving DecidableEq

namespace Gf16

def equiv : Gf16 ≃ UInt16 where
  toFun := word
  invFun := mk
  left_inv _ := rfl
  right_inv _ := rfl

instance : Fintype Gf16 := Fintype.ofEquiv UInt16 equiv.symm

theorem card : Fintype.card Gf16 = gf16Order + 1 := by
  rw [Fintype.card_congr (equiv.trans ⟨UInt16.toFin, UInt16.ofFin, fun _ => rfl, fun _ => rfl⟩)]
  exact Fintype.card_fin _

instance : Zero Gf16 := ⟨⟨0⟩⟩

instance : Add Gf16 := ⟨fun a b => ⟨a.word ^^^ b.word⟩⟩

/-- Every element is its own opposite. -/
instance : Neg Gf16 := ⟨id⟩

instance : AddCommGroup Gf16 where
  add_assoc a b c := Gf16.ext (UInt16.xor_assoc ..)
  add_comm a b := Gf16.ext (UInt16.xor_comm ..)
  zero_add a := Gf16.ext UInt16.zero_xor
  add_zero a := Gf16.ext UInt16.xor_zero
  neg_add_cancel a := Gf16.ext UInt16.xor_self
  nsmul := nsmulRec
  zsmul := zsmulRec

@[simp] theorem word_add (a b : Gf16) : (a + b).word = a.word ^^^ b.word := rfl

@[simp] theorem word_zero : (0 : Gf16).word = 0 := rfl

/-- Multiplication by x. -/
def next : Gf16 →+ Gf16 where
  toFun a := ⟨gf16Next a.word⟩
  map_zero' := by rfl
  map_add' a b := Gf16.ext (gf16Next_xor ..)

theorem word_next_iterate (n : Nat) (a : Gf16) : (next^[n] a).word = gf16Next^[n] a.word := by
  induction n generalizing a with
  | zero => rfl
  | succ n ih => rw [iterate_succ_apply, iterate_succ_apply, ih]; rfl

theorem gf16Exp_of_lt {i : Nat} (h : i < gf16Order) : gf16Exp i = (next^[i] ⟨1⟩).word := by
  rw [word_next_iterate, gf16Exp, if_pos h]

theorem exists_gf16Exp_eq {a : UInt16} (h : a ≠ 0) : ∃ i < gf16Order, gf16Exp i = a := by
  have hperiod : minimalPeriod next ⟨1⟩ = gf16Order := by
    rw [← gf16Next_period]
    apply minimalPeriod_eq_minimalPeriod_iff.2
    intro n
    simp only [IsPeriodicPt, IsFixedPt, Gf16.ext_iff, word_next_iterate]
  have hne : (⟨a⟩ : Gf16) ≠ 0 := fun h0 => h (congrArg word h0)
  obtain ⟨i, hi, heq⟩ := exists_iterate_eq next card (by decide) hperiod hne
  exact ⟨i, hi, by rw [gf16Exp_of_lt hi, heq]⟩

theorem gf16Log_spec {a : UInt16} (h : a ≠ 0) :
    (gf16Log a).toNat < gf16Order ∧ gf16Exp (gf16Log a).toNat = a := by
  obtain ⟨i, hi, hexp, hlog⟩ := exists_of_foldl_update gf16Exp UInt16.ofNat (fun _ => 0)
    (exists_gf16Exp_eq h)
  have htoNat : (gf16Log a).toNat = i := by
    rw [gf16Log, hlog, UInt16.toNat_ofNat_of_lt' (hi.trans (by decide))]
  rw [htoNat]
  exact ⟨hi, hexp⟩

-- from here on the tables are used through their specification only
attribute [irreducible] gf16Log gf16Order

/-- The tables of the source, as a table of logarithms. -/
def table : LogTable Gf16 where
  step := next
  one := ⟨1⟩
  order := gf16Order
  log a := (gf16Log a.word).toNat
  one_ne_zero := by decide
  step_order := Gf16.ext (by rw [word_next_iterate, gf16Next_order])
  log_lt a h := (gf16Log_spec fun h0 => h (Gf16.ext h0)).1
  step_log a h := by
    have hspec := gf16Log_spec (a := a.word) fun h0 => h (Gf16.ext h0)
    exact Gf16.ext (by rw [← gf16Exp_of_lt hspec.1, hspec.2])

instance : Field Gf16 := table.field

theorem mk_gf16Exp {i : Nat} (h : i < 2 * gf16Order) : (⟨gf16Exp i⟩ : Gf16) = table.exp i := by
  by_cases hi : i < gf16Order
  · exact Gf16.ext (gf16Exp_of_lt hi)
  · have hsub : i - gf16Order + gf16Order = i := by omega
    have hexp : gf16Exp i = gf16Exp (i - gf16Order) := by
      rw [gf16Exp, gf16Exp, if_neg hi, if_pos (by omega)]
    calc (⟨gf16Exp i⟩ : Gf16) = table.exp (i - gf16Order) := by
          rw [hexp]
          exact Gf16.ext (gf16Exp_of_lt (by omega))
      _ = table.exp (i - gf16Order + gf16Order) := (table.exp_add_order _).symm
      _ = table.exp i := by rw [hsub]

end Gf16

/-! ## The operations are the field's -/

open Gf16

theorem mk_xor (a b : UInt16) : (⟨a ^^^ b⟩ : Gf16) = ⟨a⟩ + ⟨b⟩ := rfl

theorem mk_xor_eq_sub (a b : UInt16) : (⟨a ^^^ b⟩ : Gf16) = ⟨a⟩ - ⟨b⟩ := by
  rw [mk_xor, sub_eq_add_neg]
  rfl

theorem mk_ne_zero {a : UInt16} : (⟨a⟩ : Gf16) ≠ 0 ↔ a ≠ 0 :=
  not_congr ⟨congrArg word, fun h => Gf16.ext h⟩

theorem mk_gf16Mul (a b : UInt16) : (⟨gf16Mul a b⟩ : Gf16) = ⟨a⟩ * ⟨b⟩ := by
  show _ = table.mul ⟨a⟩ ⟨b⟩
  rw [gf16Mul, LogTable.mul]
  by_cases h : a = 0 ∨ b = 0
  · rw [if_pos h, if_pos (by simpa [Gf16.ext_iff] using h)]
    rfl
  · rw [if_neg h, if_neg (by simpa [Gf16.ext_iff] using h)]
    have ha := (gf16Log_spec (not_or.1 h).1).1
    have hb := (gf16Log_spec (not_or.1 h).2).1
    exact mk_gf16Exp (by omega)

/-- Division succeeds on every non-zero divisor and is the field's. -/
theorem gf16Div_eq {a b : UInt16} (hb : b ≠ 0) :
    ∃ q, gf16Div a b = .ok q ∧ (⟨q⟩ : Gf16) = ⟨a⟩ / ⟨b⟩ := by
  rw [gf16Div]
  by_cases ha : a = 0
  · refine ⟨0, if_pos ha, ?_⟩
    rw [ha]
    exact (zero_div (⟨b⟩ : Gf16)).symm
  · obtain ⟨hla, -⟩ := gf16Log_spec ha
    obtain ⟨hlb, -⟩ := gf16Log_spec hb
    refine ⟨_, by rw [if_neg ha, if_neg hb], ?_⟩
    rw [mk_gf16Exp (by split <;> omega), div_eq_mul_inv]
    symm
    apply table.mul_inv_eq_exp (mk_ne_zero.2 ha) (mk_ne_zero.2 hb)
    show _ + (gf16Log b).toNat = (gf16Log a).toNat ∨
      _ + (gf16Log b).toNat = (gf16Log a).toNat + gf16Order
    split <;> omega

end Qau
