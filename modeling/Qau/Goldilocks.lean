import Qau.Bytes

/-!
# The Goldilocks field

A translation of `fri_field.go`: arithmetic modulo p = 2^64 - 2^32 + 1 on
64-bit words, without branches on the operands. Every word stands for its
residue (`toField`). Multiplication is exact for all words
(`toField_mul`), addition and subtraction for words below p, and every
result is below p again.

That p is prime follows from Lucas' test, with the powers of 7 computed by
the modelled `GF64Pow` itself; the same powers give the order of the domain
generators (`isPrimitiveRoot_generator`).
-/

namespace Qau.Fri

abbrev GF64Element := UInt64

def goldilocksP : UInt64 := 0xFFFFFFFF00000001

/-- The modulus. -/
def prime : Nat := 18446744069414584321

theorem toNat_goldilocksP : goldilocksP.toNat = prime := rfl

/-! ## Words -/

/-- `bits.Add64` without carry in: the sum and the carry. -/
def add64 (x y : UInt64) : UInt64 × UInt64 := (x + y, if x + y < x then 1 else 0)

/-- `bits.Sub64` without borrow in: the difference and the borrow. -/
def sub64 (x y : UInt64) : UInt64 × UInt64 := (x - y, if x < y then 1 else 0)

/-- `bits.Mul64`: the high and the low word of the product. -/
def mul64 (x y : UInt64) : UInt64 × UInt64 := (UInt64.ofNat (x.toNat * y.toNat / 2 ^ 64), x * y)

def ctSelect (cond : UInt64) (x y : GF64Element) : GF64Element :=
  let mask := -cond
  (x &&& mask) ||| (y &&& ~~~mask)

def ctReduceOnce (v : UInt64) : UInt64 :=
  let borrow := (sub64 v goldilocksP).2
  let ge := borrow ^^^ 1
  let reduced := v - goldilocksP
  let mask := -ge
  (v &&& ~~~mask) ||| (reduced &&& mask)

/-- One round of the loop in `reduce128`: 2^64 is 2^32 - 1 modulo p. -/
def reduceRound (hi lo : UInt64) : UInt64 × UInt64 :=
  let (tLo, carry) := add64 lo (hi <<< 32)
  let tHi := (hi >>> 32) + carry
  let (tLo2, borrow) := sub64 tLo hi
  (tHi - borrow, tLo2)

def reduce128 (hi lo : UInt64) : UInt64 :=
  let (hi, lo) := reduceRound hi lo
  let (hi, lo) := reduceRound hi lo
  let (_, lo) := reduceRound hi lo
  ctReduceOnce lo

def gf64Add (a b : GF64Element) : GF64Element :=
  let (r, carry) := add64 a b
  let rOverflow := (add64 r (2 ^ 32 - 1)).1
  let rNormal := ctReduceOnce r
  let mask := -carry
  (rOverflow &&& mask) ||| (rNormal &&& ~~~mask)

def gf64Sub (a b : GF64Element) : GF64Element :=
  let (r, borrow) := sub64 a b
  let rUnderflow := (sub64 r (2 ^ 32 - 1)).1
  let mask := -borrow
  (rUnderflow &&& mask) ||| (r &&& ~~~mask)

def gf64Mul (a b : GF64Element) : GF64Element :=
  let (hi, lo) := mul64 a b
  reduce128 hi lo

/-- One round of the loop in `GF64Pow`. -/
def powRound (exp : UInt64) (s : GF64Element × GF64Element) (i : Nat) : GF64Element × GF64Element :=
  let bit := (exp >>> UInt64.ofNat i) &&& 1
  (ctSelect bit (gf64Mul s.1 s.2) s.1, gf64Mul s.2 s.2)

def gf64Pow (a : GF64Element) (exp : UInt64) : GF64Element :=
  ((List.range 64).foldl (powRound exp) (1, a)).1

/-- `GF64Inverse`; `none` is `ErrGF64InverseZero`. -/
def gf64Inverse (a : GF64Element) : Option GF64Element :=
  if a = 0 then none else some (gf64Pow a (goldilocksP - 2))

def gf64Div (a b : GF64Element) : Option GF64Element :=
  (gf64Inverse b).map (gf64Mul a)

def gf64Generator2pow32 : GF64Element := gf64Pow 7 ((goldilocksP - 1) >>> 32)

def gf64Generator (k : Nat) : GF64Element :=
  if k > 32 then 0 else if k = 0 then 1
  else gf64Pow gf64Generator2pow32 (1 <<< UInt64.ofNat (32 - k))

/-! ## Values -/

theorem add64_spec (x y : UInt64) : (add64 x y).2.toNat ≤ 1 ∧
      (add64 x y).2.toNat * 2 ^ 64 + (add64 x y).1.toNat = x.toNat + y.toNat := by
  have hx := x.toNat_lt
  have hy := y.toNat_lt
  have hsum := UInt64.toNat_add x y
  unfold add64
  dsimp only
  by_cases h : x + y < x
  · rw [if_pos h, UInt64.toNat_one]
    rw [UInt64.lt_iff_toNat_lt] at h
    omega
  · rw [if_neg h, UInt64.toNat_zero]
    rw [UInt64.lt_iff_toNat_lt] at h
    omega

theorem sub64_spec (x y : UInt64) : (sub64 x y).2.toNat ≤ 1 ∧
      x.toNat + (sub64 x y).2.toNat * 2 ^ 64 = (sub64 x y).1.toNat + y.toNat := by
  have hx := x.toNat_lt
  have hy := y.toNat_lt
  have hdiff := UInt64.toNat_sub x y
  unfold sub64
  dsimp only
  by_cases h : x < y
  · rw [if_pos h, UInt64.toNat_one]
    rw [UInt64.lt_iff_toNat_lt] at h
    omega
  · rw [if_neg h, UInt64.toNat_zero]
    rw [UInt64.lt_iff_toNat_lt] at h
    omega

theorem select_flag (x y : UInt64) (c : Prop) [Decidable c] :
    (x &&& -(if c then 1 else 0)) ||| (y &&& ~~~(-(if c then 1 else 0))) = if c then x else y := by
  split_ifs
  · simp
  · simp

theorem ctReduceOnce_eq (v : UInt64) :
    ctReduceOnce v = if v < goldilocksP then v else v - goldilocksP := by
  unfold ctReduceOnce sub64
  split_ifs
  · simp
  · simp

theorem toNat_ctReduceOnce (v : UInt64) : (ctReduceOnce v).toNat = v.toNat % prime := by
  rw [ctReduceOnce_eq]
  have hv := v.toNat_lt
  split_ifs with h
  · exact (Nat.mod_eq_of_lt h).symm
  · rw [UInt64.not_lt] at h
    rw [UInt64.toNat_sub_of_le _ _ h, toNat_goldilocksP]
    rw [UInt64.le_iff_toNat_le, toNat_goldilocksP] at h
    unfold prime at *
    omega

theorem toNat_shiftLeft_32 (x : UInt64) : (x <<< 32).toNat = x.toNat % 2 ^ 32 * 2 ^ 32 := by
  rw [UInt64.toNat_shiftLeft]
  simp only [Nat.shiftLeft_eq]
  exact Nat.mul_mod_mul_right (2 ^ 32) x.toNat (2 ^ 32)

theorem toNat_shiftRight_32 (x : UInt64) : (x >>> 32).toNat = x.toNat / 2 ^ 32 := by
  simp [Nat.shiftRight_eq_div_pow]

theorem reduceRound_spec (hi lo : UInt64) :
    (reduceRound hi lo).1.toNat * 2 ^ 64 + (reduceRound hi lo).2.toNat =
      lo.toNat + hi.toNat * 4294967295 := by
  have hhi := hi.toNat_lt
  have hl := toNat_shiftLeft_32 hi
  have hr := toNat_shiftRight_32 hi
  obtain ⟨hc, hsum⟩ := add64_spec lo (hi <<< 32)
  obtain ⟨hb, hdiff⟩ := sub64_spec (add64 lo (hi <<< 32)).1 hi
  unfold reduceRound
  dsimp only
  generalize add64 lo (hi <<< 32) = t at hc hsum hb hdiff ⊢
  generalize sub64 t.1 hi = u at hb hdiff ⊢
  have hu := u.1.toNat_lt
  have hcarry : ((hi >>> 32) + t.2).toNat = hi.toNat / 2 ^ 32 + t.2.toNat := by
    rw [UInt64.toNat_add]
    omega
  have hle : u.2.toNat ≤ ((hi >>> 32) + t.2).toNat := by
    omega
  obtain ⟨k, hk⟩ := Nat.exists_eq_add_of_le hle
  have hsub : ((hi >>> 32) + t.2 - u.2).toNat = k := by
    rw [UInt64.toNat_sub_of_le _ _ (UInt64.le_iff_toNat_le.mpr hle), hk]
    exact Nat.add_sub_cancel_left ..
  have hdiv := Nat.div_add_mod hi.toNat (2 ^ 32)
  rw [hsub]
  rw [hcarry] at hk
  rw [hl] at hsum
  linear_combination hsum - hdiff + 2 ^ 32 * hdiv - 2 ^ 64 * hk

theorem toNat_reduce128 (hi lo : UInt64) :
    (reduce128 hi lo).toNat = (hi.toNat * 2 ^ 64 + lo.toNat) % prime := by
  have hhi := hi.toNat_lt
  have hlo := lo.toNat_lt
  unfold reduce128
  dsimp only
  have h1 := reduceRound_spec hi lo
  generalize reduceRound hi lo = s1 at h1 ⊢
  have hlo1 := s1.2.toNat_lt
  have h2 := reduceRound_spec s1.1 s1.2
  generalize reduceRound s1.1 s1.2 = s2 at h2 ⊢
  have hlo2 := s2.2.toNat_lt
  have h3 := reduceRound_spec s2.1 s2.2
  generalize reduceRound s2.1 s2.2 = s3 at h3 ⊢
  rw [toNat_ctReduceOnce]
  have hb1 : s1.1.toNat < 2 ^ 32 := by omega
  have hb2 : s2.1.toNat ≤ 1 := by omega
  have hb3 : s3.1.toNat = 0 := by omega
  have hmod : ∀ a b c d : Nat, a * 2 ^ 64 + b = d + c * 4294967295 →
      (a * 2 ^ 64 + b) % prime = (c * 2 ^ 64 + d) % prime := by
    intro a b c d h
    have : c * 2 ^ 64 + d = a * 2 ^ 64 + b + c * prime := by
      unfold prime
      rw [h]
      ring
    rw [this, Nat.add_mul_mod_self_right]
  rw [← hmod _ _ _ _ h1, ← hmod _ _ _ _ h2, ← hmod _ _ _ _ h3, hb3, Nat.zero_mul, Nat.zero_add]

theorem toNat_gf64Mul (a b : GF64Element) : (gf64Mul a b).toNat = a.toNat * b.toNat % prime := by
  have ha := a.toNat_lt
  have hb := b.toNat_lt
  unfold gf64Mul mul64
  have hlt : a.toNat * b.toNat / 2 ^ 64 < 2 ^ 64 := by
    rw [Nat.div_lt_iff_lt_mul (by decide)]
    exact Nat.mul_lt_mul'' ha hb
  rw [toNat_reduce128, UInt64.toNat_ofNat_of_lt' hlt, UInt64.toNat_mul, Nat.div_add_mod']

/-- The words that stand for themselves. -/
def Canonical (a : GF64Element) : Prop := a.toNat < prime

instance : DecidablePred Canonical := fun a => inferInstanceAs (Decidable (a.toNat < prime))

theorem prime_pos : 0 < prime := by decide

theorem canonical_of_mod {a : GF64Element} {n : Nat} (h : a.toNat = n % prime) : Canonical a := by
  unfold Canonical
  rw [h]
  exact Nat.mod_lt _ prime_pos

theorem canonical_mul (a b : GF64Element) : Canonical (gf64Mul a b) :=
  canonical_of_mod (toNat_gf64Mul a b)

theorem gf64Add_eq (a b : GF64Element) :
    gf64Add a b = if a + b < a then a + b + 4294967295 else ctReduceOnce (a + b) := by
  unfold gf64Add add64
  dsimp only
  rw [select_flag]
  rfl

theorem gf64Sub_eq (a b : GF64Element) :
    gf64Sub a b = if a < b then a - b - 4294967295 else a - b := by
  unfold gf64Sub sub64
  dsimp only
  rw [select_flag]
  rfl

section
variable {a b : GF64Element} (ha : Canonical a) (hb : Canonical b)
include ha hb

theorem toNat_gf64Add : (gf64Add a b).toNat = (a.toNat + b.toNat) % prime := by
  unfold Canonical prime at *
  rw [gf64Add_eq]
  have hsum := UInt64.toNat_add a b
  by_cases h : a + b < a
  · rw [if_pos h, UInt64.toNat_add]
    rw [UInt64.lt_iff_toNat_lt] at h
    have he : (4294967295 : UInt64).toNat = 4294967295 := rfl
    omega
  · rw [if_neg h, toNat_ctReduceOnce]
    rw [UInt64.lt_iff_toNat_lt] at h
    unfold prime
    omega

theorem toNat_gf64Sub : (gf64Sub a b).toNat = (a.toNat + (prime - b.toNat)) % prime := by
  unfold Canonical prime at *
  rw [gf64Sub_eq]
  have hdiff := UInt64.toNat_sub a b
  by_cases h : a < b
  · rw [if_pos h, UInt64.toNat_sub]
    rw [UInt64.lt_iff_toNat_lt] at h
    have he : (4294967295 : UInt64).toNat = 4294967295 := rfl
    omega
  · rw [if_neg h]
    rw [UInt64.lt_iff_toNat_lt] at h
    omega

theorem canonical_add : Canonical (gf64Add a b) :=
  canonical_of_mod (toNat_gf64Add ha hb)

theorem canonical_sub : Canonical (gf64Sub a b) :=
  canonical_of_mod (toNat_gf64Sub ha hb)

end

/-! ## The residues -/

abbrev F := ZMod prime

/-- The residue that a word stands for. -/
def toField (a : GF64Element) : F := a.toNat

theorem toField_inj {a b : GF64Element} (ha : Canonical a) (hb : Canonical b)
    (h : toField a = toField b) : a = b := by
  unfold toField at h
  rw [ZMod.natCast_eq_natCast_iff'] at h
  rw [Nat.mod_eq_of_lt ha, Nat.mod_eq_of_lt hb] at h
  exact UInt64.toNat_inj.mp h

@[simp] theorem toField_zero : toField 0 = 0 := by simp [toField]

@[simp] theorem toField_one : toField 1 = 1 := by simp [toField]

theorem toField_mul (a b : GF64Element) : toField (gf64Mul a b) = toField a * toField b := by
  unfold toField
  rw [toNat_gf64Mul, ZMod.natCast_mod, Nat.cast_mul]

theorem toField_add {a b : GF64Element} (ha : Canonical a) (hb : Canonical b) :
    toField (gf64Add a b) = toField a + toField b := by
  unfold toField
  rw [toNat_gf64Add ha hb, ZMod.natCast_mod, Nat.cast_add]

theorem toField_sub {a b : GF64Element} (ha : Canonical a) (hb : Canonical b) :
    toField (gf64Sub a b) = toField a - toField b := by
  unfold toField
  rw [toNat_gf64Sub ha hb, ZMod.natCast_mod, Nat.cast_add, Nat.cast_sub (Nat.le_of_lt hb),
    ZMod.natCast_self]
  ring

/-! ## Powers -/

theorem bit_eq (exp : UInt64) {n : Nat} (hn : n < 64) :
    (exp >>> UInt64.ofNat n) &&& 1 = if exp.toNat.testBit n then 1 else 0 := by
  have hshift : (UInt64.ofNat n).toNat % 64 = n := by
    rw [UInt64.toNat_ofNat_of_lt' (hn.trans (by decide)), Nat.mod_eq_of_lt hn]
  have hval : ((exp >>> UInt64.ofNat n) &&& 1).toNat = exp.toNat / 2 ^ n % 2 := by
    rw [UInt64.toNat_and, UInt64.toNat_shiftRight, hshift, UInt64.toNat_one, Nat.and_one_is_mod,
      Nat.shiftRight_eq_div_pow]
  rw [← UInt64.toNat_inj, hval, Nat.testBit_eq_decide_div_mod_eq]
  rcases Nat.mod_two_eq_zero_or_one (exp.toNat / 2 ^ n) with h | h
  · rw [h]
    rfl
  · rw [h]
    rfl

/-- After `i` rounds the result has the low `i` bits of the exponent, and the
base is squared `i` times. -/
theorem foldl_powRound (a : GF64Element) (exp : UInt64) (n : Nat) (hn : n ≤ 64) :
    let s := (List.range n).foldl (powRound exp) (1, a)
    toField s.1 = toField a ^ (exp.toNat % 2 ^ n) ∧ toField s.2 = toField a ^ 2 ^ n ∧
      Canonical s.1 := by
  induction n with
  | zero =>
    refine ⟨?_, ?_, ?_⟩
    · simp [Nat.mod_one]
    · simp
    · show (1 : Nat) < prime
      decide
  | succ n ih =>
    obtain ⟨h1, h2, hc⟩ := ih (by omega)
    rw [List.range_succ, List.foldl_append, List.foldl_cons, List.foldl_nil]
    generalize (List.range n).foldl (powRound exp) (1, a) = s at h1 h2 hc
    have hmod : exp.toNat % 2 ^ (n + 1) =
        exp.toNat % 2 ^ n + if exp.toNat.testBit n then 2 ^ n else 0 := by
      rw [Nat.mod_pow_succ, Nat.testBit_eq_decide_div_mod_eq]
      rcases Nat.mod_two_eq_zero_or_one (exp.toNat / 2 ^ n) with h | h
      · simp [h]
      · simp [h]
    unfold powRound ctSelect
    dsimp only
    rw [bit_eq exp (by omega), select_flag]
    refine ⟨?_, ?_, ?_⟩
    · rw [hmod]
      split_ifs
      · rw [toField_mul, h1, h2, pow_add]
      · rw [h1, Nat.add_zero]
    · rw [toField_mul, h2]
      ring_nf
    · split_ifs
      · exact canonical_mul _ _
      · exact hc

theorem toField_pow (a : GF64Element) (exp : UInt64) :
    toField (gf64Pow a exp) = toField a ^ exp.toNat := by
  have h := (foldl_powRound a exp 64 le_rfl).1
  rw [Nat.mod_eq_of_lt exp.toNat_lt] at h
  exact h

theorem canonical_pow (a : GF64Element) (exp : UInt64) : Canonical (gf64Pow a exp) :=
  (foldl_powRound a exp 64 le_rfl).2.2

/-! ## The modulus is prime -/

/-- A power of 7 is 1 only if the word that `GF64Pow` computes is. -/
theorem seven_pow_eq_one_iff (exp : UInt64) : (7 : F) ^ exp.toNat = 1 ↔ gf64Pow 7 exp = 1 := by
  have h7 : (7 : F) ^ exp.toNat = toField (gf64Pow 7 exp) := by
    rw [toField_pow]
    rfl
  rw [h7, ← toField_one]
  refine ⟨toField_inj (canonical_pow _ _) ?_, fun h => by rw [h]⟩
  decide

theorem prime_factor {q : Nat} (hq : q.Prime) (h : q ∣ prime - 1) :
    q ∈ [2, 3, 5, 17, 257, 65537] := by
  have hfac : prime - 1 = 2 ^ 31 * [2, 3, 5, 17, 257, 65537].prod := by decide
  have hprimes : ∀ r ∈ [2, 3, 5, 17, 257, 65537], Nat.Prime r := by norm_num
  rw [hfac] at h
  rcases hq.dvd_mul.mp h with h | h
  · rw [(Nat.prime_dvd_prime_iff_eq hq Nat.prime_two).mp (hq.dvd_of_dvd_pow h)]
    exact List.mem_cons_self
  · obtain ⟨r, hr, hdvd⟩ := (Nat.Prime.prime hq).dvd_prod_iff.mp h
    rwa [(Nat.prime_dvd_prime_iff_eq hq (hprimes r hr)).mp hdvd]

theorem prime_prime : prime.Prime := by
  have hone : (7 : F) ^ (prime - 1) = 1 := by
    have hexp : (goldilocksP - 1).toNat = prime - 1 := by decide +kernel
    rw [← hexp, seven_pow_eq_one_iff]
    decide +kernel
  have hpows : ∀ q ∈ [2, 3, 5, 17, 257, 65537],
      (UInt64.ofNat ((prime - 1) / q)).toNat = (prime - 1) / q ∧
        gf64Pow 7 (UInt64.ofNat ((prime - 1) / q)) ≠ 1 := by decide +kernel
  refine lucas_primality prime 7 hone fun q hq hdvd => ?_
  obtain ⟨hexp, hne⟩ := hpows q (prime_factor hq hdvd)
  rwa [← hexp, Ne, seven_pow_eq_one_iff]

instance : Fact prime.Prime := ⟨prime_prime⟩

/-! ## Inverses and roots of unity -/

theorem toField_inverse {a r : GF64Element} (h : gf64Inverse a = some r) :
    toField r = (toField a)⁻¹ := by
  unfold gf64Inverse at h
  split_ifs at h
  have hexp : (goldilocksP - 2).toNat = prime - 2 := by decide +kernel
  rw [← Option.some.inj h, toField_pow]
  by_cases hz : toField a = 0
  · rw [hz, inv_zero, zero_pow (by decide)]
  · refine eq_inv_of_mul_eq_one_left ?_
    rw [← pow_succ]
    exact ZMod.pow_card_sub_one_eq_one hz

theorem canonical_inverse {a r : GF64Element} (h : gf64Inverse a = some r) : Canonical r := by
  unfold gf64Inverse at h
  split_ifs at h
  rw [← Option.some.inj h]
  exact canonical_pow _ _

/-- A reduced word is the remainder of every number with its residue. -/
theorem toNat_of_toField {a : GF64Element} {n : Nat} (ha : Canonical a) (h : toField a = n) :
    a.toNat = n % prime := by
  rw [← Nat.mod_eq_of_lt ha]
  exact (ZMod.natCast_eq_natCast_iff' _ _ _).mp h

/-- Division is exact: the quotient is reduced and its product with the
divisor is the dividend. -/
theorem gf64Div_spec {a b r : GF64Element} (ha : Canonical a) (hb : Canonical b) (h0 : b ≠ 0)
    (hr : gf64Inverse b = some r) : b.toNat * (gf64Mul a r).toNat % prime = a.toNat := by
  have hne : toField b ≠ 0 := fun h =>
    h0 (toField_inj hb (by decide +kernel) (h.trans toField_zero.symm))
  refine (toNat_of_toField ha ?_).symm
  rw [Nat.cast_mul]
  show toField a = toField b * toField (gf64Mul a r)
  rw [toField_mul, toField_inverse hr, mul_comm (toField a), mul_inv_cancel_left₀ hne]

/-- Every operation returns the reduced representative of its mathematical
result, and the three rounds of `reduce128` reduce every 128-bit value. -/
theorem gf64_exact {a b : GF64Element} (ha : Canonical a) (hb : Canonical b) (exp hi lo : UInt64) :
    (gf64Add a b).toNat = (a.toNat + b.toNat) % prime ∧
      ((gf64Sub a b).toNat : Int) = ((a.toNat : Int) - b.toNat) % prime ∧
      (gf64Mul a b).toNat = a.toNat * b.toNat % prime ∧
      (gf64Pow a exp).toNat = a.toNat ^ exp.toNat % prime ∧
      (if a = 0 then gf64Inverse a = none
        else ∃ r, gf64Inverse a = some r ∧ Canonical r ∧ a.toNat * r.toNat % prime = 1) ∧
      (if b = 0 then gf64Div a b = none
        else ∃ q, gf64Div a b = some q ∧ Canonical q ∧ b.toNat * q.toNat % prime = a.toNat) ∧
      (reduce128 hi lo).toNat = (hi.toNat * 2 ^ 64 + lo.toNat) % prime := by
  refine ⟨toNat_gf64Add ha hb, ?_, toNat_gf64Mul a b, ?_, ?_, ?_, toNat_reduce128 hi lo⟩
  · rw [toNat_gf64Sub ha hb, Int.natCast_mod, Nat.cast_add, Nat.cast_sub (Nat.le_of_lt hb),
      ← Int.add_emod_right (_ - _)]
    congr 1
    ring
  · refine toNat_of_toField (canonical_pow a exp) ?_
    rw [toField_pow, toField, Nat.cast_pow]
  · split_ifs with h0
    · rw [gf64Inverse, if_pos h0]
    · have hr : gf64Inverse a = some (gf64Pow a (goldilocksP - 2)) := if_neg h0
      refine ⟨_, hr, canonical_inverse hr, ?_⟩
      have h := gf64Div_spec (by decide +kernel : Canonical 1) ha h0 hr
      rwa [toNat_gf64Mul, UInt64.toNat_one, Nat.one_mul,
        Nat.mod_eq_of_lt (canonical_inverse hr)] at h
  · split_ifs with h0
    · rw [gf64Div, gf64Inverse, if_pos h0]
      rfl
    · have hr : gf64Inverse b = some (gf64Pow b (goldilocksP - 2)) := if_neg h0
      refine ⟨_, by rw [gf64Div, hr]; rfl, canonical_mul _ _, gf64Div_spec ha hb h0 hr⟩

/-- The largest element, where sums overflow 64 bits and differences borrow. -/
theorem gf64_exact_top : (gf64Add (goldilocksP - 1) (goldilocksP - 1)).toNat = prime - 2 ∧
    (gf64Sub 0 (goldilocksP - 1)).toNat = 1 := by
  have h := gf64_exact (a := goldilocksP - 1) (b := goldilocksP - 1) (by decide +kernel)
    (by decide +kernel) 0 0 0
  have h' := gf64_exact (a := 0) (b := goldilocksP - 1) (by decide +kernel) (by decide +kernel) 0 0 0
  exact ⟨h.1.trans (by decide +kernel), Int.ofNat.inj (h'.2.1.trans (by decide +kernel))⟩

/-- The powers that decide the order, computed by `GF64Pow`. -/
theorem generator2pow32_pow :
    toField gf64Generator2pow32 ^ 2 ^ 31 ≠ 1 ∧ toField gf64Generator2pow32 ^ 2 ^ 32 = 1 := by
  have hexp : ((2 : UInt64) ^ 31).toNat = 2 ^ 31 ∧ ((2 : UInt64) ^ 32).toNat = 2 ^ 32 := by
    decide +kernel
  rw [← hexp.1, ← hexp.2, ← toField_pow, ← toField_pow]
  have hval : gf64Pow gf64Generator2pow32 (2 ^ 31) = goldilocksP - 1 ∧
      gf64Pow gf64Generator2pow32 (2 ^ 32) = 1 := by decide +kernel
  rw [hval.1, hval.2]
  refine ⟨fun h => ?_, toField_one⟩
  have heq := toField_inj (by decide +kernel) (by decide +kernel) (h.trans toField_one.symm)
  exact absurd heq (by decide +kernel)

theorem isPrimitiveRoot_generator2pow32 : IsPrimitiveRoot (toField gf64Generator2pow32) (2 ^ 32) := by
  have h := orderOf_eq_prime_pow generator2pow32_pow.1 generator2pow32_pow.2
  rw [← h]
  exact IsPrimitiveRoot.orderOf _

/-- The generator for a domain of `2 ^ k` points has that order. -/
theorem isPrimitiveRoot_generator {k : Nat} (hk : k ≤ 32) :
    IsPrimitiveRoot (toField (gf64Generator k)) (2 ^ k) := by
  unfold gf64Generator
  rw [if_neg (by omega)]
  split_ifs with h0
  · subst h0
    exact IsPrimitiveRoot.one
  · have hexp : ((1 : UInt64) <<< UInt64.ofNat (32 - k)).toNat = 2 ^ (32 - k) := by
      rw [UInt64.toNat_shiftLeft, UInt64.toNat_ofNat_of_lt' (Nat.lt_of_le_of_lt (Nat.sub_le 32 k) (by decide)), UInt64.toNat_one,
        Nat.shiftLeft_eq, Nat.one_mul, Nat.mod_eq_of_lt (by omega : 32 - k < 64)]
      exact Nat.mod_eq_of_lt (Nat.pow_lt_pow_right (by decide) (by omega))
    rw [toField_pow, hexp]
    refine isPrimitiveRoot_generator2pow32.pow (by positivity) ?_
    rw [← pow_add, Nat.sub_add_cancel hk]

/-! ## Bytes -/

/-- `GF64ToBytes`: little endian. -/
def gf64ToBytes (e : GF64Element) : Bytes :=
  (List.range 8).map fun i => UInt8.ofNat (e.toNat / 256 ^ i)

/-- The word that up to eight bytes spell, little endian. -/
def wordOf (b : Bytes) : UInt64 :=
  UInt64.ofNat (((copyInto 8 b).toList.foldr (fun byte acc => byte.toNat + 256 * acc)) 0)

/-- `GF64FromBytes`: the word, reduced once. -/
def gf64FromBytes (b : Bytes) : GF64Element :=
  if wordOf b ≥ goldilocksP then wordOf b - goldilocksP else wordOf b

/-- The number that bytes spell, little endian. -/
def leValue (b : Bytes) : Nat := b.foldr (fun byte acc => byte.toNat + 256 * acc) 0

theorem leValue_lt (b : Bytes) : leValue b < 256 ^ b.length := by
  induction b with
  | nil => decide
  | cons byte b ih =>
    have hbyte := byte.toNat_lt
    rw [List.length_cons]
    change byte.toNat + 256 * leValue b < _
    omega

theorem leValue_inj {a b : Bytes} (hlen : a.length = b.length) (h : leValue a = leValue b) : a = b := by
  induction a generalizing b with
  | nil => exact (List.length_eq_zero_iff.mp hlen.symm).symm
  | cons x a ih =>
    obtain ⟨y, b', rfl⟩ := List.exists_cons_of_length_eq_add_one hlen.symm
    have hx := x.toNat_lt
    have hy := y.toNat_lt
    change x.toNat + 256 * leValue a = y.toNat + 256 * leValue b' at h
    rw [ih (Nat.succ.inj hlen) (by omega), UInt8.toNat_inj.mp (by omega : x.toNat = y.toNat)]

theorem toNat_wordOf (b : Bytes) : (wordOf b).toNat = leValue (copyInto 8 b).toList := by
  have h := leValue_lt (copyInto 8 b).toList
  rw [List.Vector.toList_length] at h
  exact UInt64.toNat_ofNat_of_lt' h

/-- Byte strings of one length, up to eight, spell different words. -/
theorem wordOf_inj {a b : Bytes} (hlen : a.length = b.length) (h8 : a.length ≤ 8)
    (h : wordOf a = wordOf b) : a = b := by
  have hval := congrArg UInt64.toNat h
  rw [toNat_wordOf, toNat_wordOf] at hval
  exact copyInto_inj_of_length h8 hlen (List.Vector.eq _ _ (leValue_inj (by simp) hval))

theorem length_gf64ToBytes (e : GF64Element) : (gf64ToBytes e).length = 8 := by
  rw [gf64ToBytes, List.length_map, List.length_range]

theorem leValue_gf64ToBytes (e : GF64Element) : leValue (gf64ToBytes e) = e.toNat := by
  have h := e.toNat_lt
  simp only [leValue, gf64ToBytes, List.range, List.range.loop, List.map_cons, List.map_nil,
    List.foldr_cons, List.foldr_nil, UInt8.toNat_ofNat']
  omega

theorem wordOf_gf64ToBytes (e : GF64Element) : wordOf (gf64ToBytes e) = e := by
  have hcopy : (copyInto 8 (gf64ToBytes e)).toList = gf64ToBytes e := by
    rw [copyInto_toList_of_le_length (length_gf64ToBytes e).ge,
      List.take_of_length_le (length_gf64ToBytes e).le]
  apply UInt64.toNat_inj.mp
  rw [toNat_wordOf, hcopy, leValue_gf64ToBytes]

theorem gf64ToBytes_inj {a b : GF64Element} (h : gf64ToBytes a = gf64ToBytes b) : a = b := by
  rw [← wordOf_gf64ToBytes a, h, wordOf_gf64ToBytes]

theorem toNat_gf64FromBytes (b : Bytes) : (gf64FromBytes b).toNat = (wordOf b).toNat % prime := by
  rw [← toNat_ctReduceOnce, ctReduceOnce_eq, gf64FromBytes]
  simp only [← UInt64.not_lt, ite_not]

theorem canonical_gf64FromBytes (b : Bytes) : Canonical (gf64FromBytes b) :=
  canonical_of_mod (toNat_gf64FromBytes b)

theorem gf64FromBytes_gf64ToBytes {e : GF64Element} (he : Canonical e) :
    gf64FromBytes (gf64ToBytes e) = e := by
  apply UInt64.toNat_inj.mp
  rw [toNat_gf64FromBytes, wordOf_gf64ToBytes, Nat.mod_eq_of_lt he]

end Qau.Fri
