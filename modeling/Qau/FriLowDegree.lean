import Qau.Fri

/-!
# Domains and the degree test

The domain of layer `i` consists of the powers of the full root with
exponents that are multiples of `2 ^ i` (`layerDomain_spec`); its points are
different. The test of the final layer interpolates the first `k` values and
compares the rest: it accepts exactly the values of polynomials of degree
below `k` (`extrapolates_iff`).
-/

namespace Qau.Fri

open Polynomial Finset Lagrange

variable {k i : Nat} {x : GF64Element}

/-! ## Domains -/

theorem powerOfTwo_iff {n : Int} : powerOfTwo n = true ↔ ∃ k : Nat, n = 2 ^ k := by
  unfold powerOfTwo
  rw [Bool.and_eq_true, decide_eq_true_eq, decide_eq_true_eq]
  constructor
  · rintro ⟨hpos, hand⟩
    obtain ⟨k, hk⟩ := (Nat.and_sub_one_eq_zero_iff_isPowerOfTwo (by omega)).mp hand
    refine ⟨k, ?_⟩
    rw [← Int.toNat_of_nonneg (Int.le_of_lt hpos), hk]
    rfl
  · rintro ⟨k, rfl⟩
    have h : ((2 : Int) ^ k).toNat = 2 ^ k := by
      rw [show ((2 : Int) ^ k) = ((2 ^ k : Nat) : Int) by push_cast; rfl, Int.toNat_natCast]
    rw [h]
    exact ⟨by positivity,
      (Nat.and_sub_one_eq_zero_iff_isPowerOfTwo (by positivity)).mpr ⟨k, rfl⟩⟩

theorem toNat_two_pow (k : Nat) : ((2 : Int) ^ k).toNat = 2 ^ k := by
  rw [show ((2 : Int) ^ k) = ((2 ^ k : Nat) : Int) by push_cast; rfl, Int.toNat_natCast]

theorem gf64Log2_two_pow (k : Nat) : gf64Log2 (2 ^ k) = k := by
  exact Nat.log2_two_pow

/-- The root of the domain with `2 ^ k` points. -/
def domainRoot (k : Nat) : F := toField (gf64Generator k)

theorem gf64Generator_ne_zero (hk : k ≤ 32) : gf64Generator k ≠ 0 := by
  intro h
  have hroot := isPrimitiveRoot_generator hk
  rw [h] at hroot
  exact hroot.ne_zero (by positivity) rfl

theorem iterate_mul (omega c : GF64Element) (n : Nat) (hc : Canonical c) :
    Canonical ((fun c => gf64Mul c omega)^[n] c) ∧
      toField ((fun c => gf64Mul c omega)^[n] c) = toField c * toField omega ^ n := by
  induction n with
  | zero => exact ⟨hc, by rw [Function.iterate_zero, id, pow_zero, mul_one]⟩
  | succ n ih =>
    rw [Function.iterate_succ_apply']
    refine ⟨canonical_mul _ _, ?_⟩
    rw [toField_mul, ih.2, pow_succ, mul_assoc]

theorem layerPoints_spec (omega : GF64Element) (step size : Nat) {c : GF64Element}
    (hc : Canonical c) : (layerPoints omega step size c).length = size ∧
      ∀ j, j < size → Canonical ((layerPoints omega step size c).getD j 0) ∧
        toField ((layerPoints omega step size c).getD j 0) = toField c * toField omega ^ (step * j) := by
  induction size generalizing c with
  | zero => exact ⟨rfl, fun j hj => absurd hj (Nat.not_lt_zero j)⟩
  | succ size ih =>
    obtain ⟨hc', hv'⟩ := iterate_mul omega c step hc
    obtain ⟨hlen, hpts⟩ := ih hc'
    refine ⟨by rw [layerPoints, List.length_cons, hlen], fun j hj => ?_⟩
    cases j with
    | zero =>
      refine ⟨hc, ?_⟩
      rw [Nat.mul_zero, pow_zero, mul_one]
      rfl
    | succ j =>
      obtain ⟨h1, h2⟩ := hpts j (by omega)
      refine ⟨h1, ?_⟩
      rw [layerPoints, List.getD_cons_succ, h2, hv']
      ring

theorem canonical_one : Canonical 1 := by
  decide

theorem layerDomain_spec (hk : k ≤ 32) (hi : i ≤ k) :
    ∃ domain, friGenerateLayerDomain i (2 ^ k) = some domain ∧ domain.length = 2 ^ (k - i) ∧
      ∀ j, j < 2 ^ (k - i) → Canonical (domain.getD j 0) ∧
        toField (domain.getD j 0) = domainRoot k ^ (2 ^ i * j) := by
  obtain ⟨hlen, hpts⟩ := layerPoints_spec (gf64Generator k) (2 ^ i) (2 ^ (k - i)) canonical_one
  refine ⟨_, ?_, hlen, fun j hj => ?_⟩
  · have hsize : 2 ^ k / 2 ^ i = 2 ^ (k - i) := Nat.pow_div hi two_pos
    have hpos : ¬ 2 ^ (k - i) < 1 := by
      have : 0 < 2 ^ (k - i) := by positivity
      omega
    have hdom : ¬ (2 : Int) ^ k ≤ 0 := by
      have : (0 : Int) < 2 ^ k := by positivity
      omega
    unfold friGenerateLayerDomain
    rw [if_neg hdom, toNat_two_pow, gf64Log2_two_pow, hsize, if_neg hpos,
      if_neg (gf64Generator_ne_zero hk), if_neg (by omega)]
  · obtain ⟨h1, h2⟩ := hpts j hj
    refine ⟨h1, ?_⟩
    rw [h2, toField_one, one_mul]
    rfl

theorem layerDomain_injOn (hk : k ≤ 32) (hi : i ≤ k) {domain : List GF64Element}
    (h : friGenerateLayerDomain i (2 ^ k) = some domain) :
    Set.InjOn (fun j => toField (domain.getD j 0)) (Set.Iio (2 ^ (k - i))) := by
  obtain ⟨domain', h', -, hpts⟩ := layerDomain_spec hk hi
  obtain rfl : domain' = domain := Option.some.inj (h'.symm.trans h)
  intro a ha b hb hab
  have hlt : ∀ c, c ∈ Set.Iio (2 ^ (k - i)) → 2 ^ i * c < 2 ^ k := by
    intro c hc
    calc 2 ^ i * c < 2 ^ i * 2 ^ (k - i) := Nat.mul_lt_mul_of_pos_left hc (by positivity)
      _ = 2 ^ k := by rw [← pow_add, Nat.add_sub_cancel' hi]
  dsimp only at hab
  rw [(hpts a ha).2, (hpts b hb).2] at hab
  exact Nat.eq_of_mul_eq_mul_left (by positivity)
    ((isPrimitiveRoot_generator hk).pow_inj (hlt a ha) (hlt b hb) hab)

/-! ## Interpolation -/

section Interpolation

variable {values domain : List GF64Element} {n k : Nat}

def pointOf (domain : List GF64Element) (j : Nat) : F := toField (domain.getD j 0)

/-- The domain is one of `n` different points. -/
structure Points (domain : List GF64Element) (n : Nat) : Prop where
  canonical : ∀ j, j < n → Canonical (domain.getD j 0)
  injOn : Set.InjOn (pointOf domain) (Set.Iio n)

theorem foldl_mul_sub (hx : Canonical x) (l : List Nat) (hl : ∀ j ∈ l, Canonical (domain.getD j 0))
    (acc : GF64Element) :
    toField (l.foldl (fun acc j => gf64Mul acc (gf64Sub x (domain.getD j 0))) acc) =
      toField acc * (l.map fun j => toField x - pointOf domain j).prod := by
  induction l generalizing acc with
  | nil => simp
  | cons j l ih =>
    have hj := hl j List.mem_cons_self
    rw [List.foldl_cons, ih (fun j hj => hl j (List.mem_cons_of_mem _ hj)), toField_mul,
      toField_sub hx hj, List.map_cons, List.prod_cons, mul_assoc]
    rfl

theorem prod_filter_range (i : Nat) (f : Nat → F) :
    (((List.range k).filter (· ≠ i)).map f).prod = ∏ j ∈ (range k).erase i, f j := by
  rw [← List.prod_toFinset f (List.nodup_range.filter _)]
  congr 1
  ext j
  simp [and_comm]

theorem mem_filter_range {j : Nat} (h : j ∈ (List.range k).filter (· ≠ i)) : j < k ∧ j ≠ i := by
  simpa using h

theorem basis_spec (hp : Points domain k) (hx : Canonical x) (hi : i < k) : ∃ li, gf64Div
        (((List.range k).filter (· ≠ i)).foldl
          (fun num j => gf64Mul num (gf64Sub x (domain.getD j 0))) 1)
        (((List.range k).filter (· ≠ i)).foldl
          (fun den j => gf64Mul den (gf64Sub (domain.getD i 0) (domain.getD j 0))) 1) = some li ∧
      toField li = (Lagrange.basis (range k) (pointOf domain) i).eval (toField x) := by
  have hcan : ∀ j ∈ (List.range k).filter (· ≠ i), Canonical (domain.getD j 0) := fun j hj =>
    hp.canonical j (mem_filter_range hj).1
  have hnum := foldl_mul_sub hx _ hcan 1
  have hden := foldl_mul_sub (hp.canonical i hi) _ hcan 1
  rw [toField_one, one_mul, prod_filter_range] at hnum hden
  generalize ((List.range k).filter (· ≠ i)).foldl
    (fun num j => gf64Mul num (gf64Sub x (domain.getD j 0))) 1 = num at hnum ⊢
  generalize ((List.range k).filter (· ≠ i)).foldl
    (fun den j => gf64Mul den (gf64Sub (domain.getD i 0) (domain.getD j 0))) 1 = den at hden ⊢
  have hne : toField den ≠ 0 := by
    rw [hden, prod_ne_zero_iff]
    intro j hj h
    obtain ⟨hji, hjk⟩ := mem_erase.mp hj
    exact hji (hp.injOn (mem_range.mp hjk) hi (sub_eq_zero.mp h).symm)
  have hden0 : den ≠ 0 := by
    rintro rfl
    exact hne toField_zero
  have hinv : gf64Inverse den = some (gf64Pow den (goldilocksP - 2)) := by
    unfold gf64Inverse
    rw [if_neg hden0]
  refine ⟨gf64Mul num (gf64Pow den (goldilocksP - 2)), ?_, ?_⟩
  · unfold gf64Div
    rw [hinv]
    rfl
  · rw [toField_mul, toField_inverse hinv, hnum, hden, Lagrange.basis, eval_prod,
      ← prod_inv_distrib, ← prod_mul_distrib]
    refine prod_congr rfl fun j _ => ?_
    rw [basisDivisor, eval_mul, eval_C, eval_sub, eval_X, eval_C, mul_comm]
    rfl

theorem interpolate_spec (values : List GF64Element) (hp : Points domain k) (hx : Canonical x) :
    ∃ s, interpolate values domain k x = some s ∧ Canonical s ∧
      toField s = (Lagrange.interpolate (range k) (pointOf domain) (pointOf values)).eval
        (toField x) := by
  have hfold : ∀ (l : List Nat), (∀ i ∈ l, i < k) → ∀ acc : GF64Element, Canonical acc →
      ∃ s, l.foldlM (fun sum i =>
          let others := (List.range k).filter (· ≠ i)
          let num := others.foldl (fun num j => gf64Mul num (gf64Sub x (domain.getD j 0))) 1
          let den := others.foldl (fun den j =>
            gf64Mul den (gf64Sub (domain.getD i 0) (domain.getD j 0))) 1
          (gf64Div num den).map fun li => gf64Add sum (gf64Mul (values.getD i 0) li)) acc = some s ∧
        Canonical s ∧ toField s = toField acc + (l.map fun i => pointOf values i *
          (Lagrange.basis (range k) (pointOf domain) i).eval (toField x)).sum := by
    intro l
    induction l with
    | nil => exact fun _ acc hacc => ⟨acc, rfl, hacc, by simp⟩
    | cons i l ih =>
      intro hl acc hacc
      obtain ⟨li, hli, hval⟩ := basis_spec hp hx (hl i List.mem_cons_self)
      have hmul := canonical_mul (values.getD i 0) li
      obtain ⟨s, hs, hcan, hsum⟩ := ih (fun j hj => hl j (List.mem_cons_of_mem _ hj))
        (gf64Add acc (gf64Mul (values.getD i 0) li)) (canonical_add hacc hmul)
      refine ⟨s, ?_, hcan, ?_⟩
      · rw [List.foldlM_cons]
        dsimp only
        rw [hli]
        exact hs
      · rw [hsum, toField_add hacc hmul, toField_mul, hval, List.map_cons, List.sum_cons, add_assoc]
        rfl
  obtain ⟨s, hs, hcan, hsum⟩ := hfold (List.range k) (fun i hi => List.mem_range.mp hi) 0 prime_pos
  refine ⟨s, hs, hcan, ?_⟩
  rw [hsum, toField_zero, zero_add, interpolate_apply, eval_finsetSum,
    ← List.sum_toFinset _ List.nodup_range, List.toFinset_range]
  refine sum_congr rfl fun i _ => ?_
  rw [eval_mul, eval_C]

theorem mem_drop_range {n m : Nat} : m ∈ (List.range n).drop k ↔ k ≤ m ∧ m < n := by
  rw [List.range_eq_range', List.drop_range', List.mem_range'_1]
  omega

/-- The test accepts the values of polynomials of degree below `k`, if those
from `k` on are reduced. -/
theorem extrapolates_iff (hp : Points domain values.length) (hk : k ≤ values.length) :
    extrapolates values domain k = true ↔
      (∀ m, k ≤ m → m < values.length → Canonical (values.getD m 0)) ∧
        ∃ P : F[X], P.degree < k ∧ ∀ m, m < values.length → P.eval (pointOf domain m) =
          pointOf values m := by
  have hpk : Points domain k := ⟨fun j hj => hp.canonical j (hj.trans_le hk),
    hp.injOn.mono (Set.Iio_subset_Iio hk)⟩
  have hinj : Set.InjOn (pointOf domain) (range k) := by
    rw [coe_range]
    exact hpk.injOn
  have htest : extrapolates values domain k = true ↔ ∀ m, k ≤ m → m < values.length →
      Canonical (values.getD m 0) ∧
        (Lagrange.interpolate (range k) (pointOf domain) (pointOf values)).eval
          (pointOf domain m) = pointOf values m := by
    unfold extrapolates
    rw [List.all_eq_true]
    refine forall_congr' fun m => ?_
    rw [mem_drop_range, and_imp]
    refine imp_congr_right fun hkm => imp_congr_right fun hm => ?_
    rw [decide_eq_true_eq]
    obtain ⟨s, hs, hcan, hval⟩ := interpolate_spec values hpk (hp.canonical m hm)
    rw [hs, Option.some_inj]
    constructor
    · rintro rfl
      exact ⟨hcan, hval.symm⟩
    · rintro ⟨hcan', heval⟩
      exact toField_inj hcan hcan' (hval.trans heval)
  rw [htest]
  constructor
  · intro h
    refine ⟨fun m hkm hm => (h m hkm hm).1,
      Lagrange.interpolate (range k) (pointOf domain) (pointOf values), ?_, fun m hm => ?_⟩
    · have hdeg := degree_interpolate_lt (pointOf values) hinj
      rwa [card_range] at hdeg
    · by_cases hmk : m < k
      · exact eval_interpolate_at_node _ hinj (mem_range.mpr hmk)
      · exact (h m (not_lt.mp hmk) hm).2
  · rintro ⟨hcan, P, hdeg, heval⟩ m hkm hm
    refine ⟨hcan m hkm hm, ?_⟩
    have heq : P = Lagrange.interpolate (range k) (pointOf domain) (pointOf values) := by
      refine eq_interpolate_of_eval_eq _ hinj ?_ fun i hi => ?_
      · rw [card_range]
        exact hdeg
      · exact heval i ((mem_range.mp hi).trans_le hk)
    rw [← heq]
    exact heval m hm

end Interpolation

end Qau.Fri
