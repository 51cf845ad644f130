import Qau.FriLowDegree
import Qau.PolyFold

/-!
# Codewords and layers

A codeword is the list of values of a polynomial on the full domain
(`reedSolomon_spec`, from the transform's specification), and the list that
`friFold` makes of the values of a polynomial on one layer is that of the
folded polynomial on the next (`friFold_spec`). So the layers of `FRICommit`
are the values of successive folds, each with its own tree (`Layered`,
`friCommit_spec`).
-/

namespace Qau.Fri

open Polynomial

variable {P : F[X]} {n i : Nat} {a coeffs l domain : List GF64Element} {layer : FriLayer}
  {cfg : FRIConfig} {codeword : List GF64Element}

/-! ## Codewords -/

/-- The words below the modulus stand for field elements. -/
def gf64Represents : Butterfly.Represents gf64Ops F where
  val := toField
  good := Canonical
  one := ⟨canonical_one, toField_one⟩
  add ha hb := ⟨canonical_add ha hb, toField_add ha hb⟩
  sub ha hb := ⟨canonical_sub ha hb, toField_sub ha hb⟩
  mul {a b} _ _ := ⟨canonical_mul a b, toField_mul a b⟩

/-- The values of a polynomial on layer `i` of the domain of `2 ^ k` points. -/
structure Evaluates (k i : Nat) (P : F[X]) (values : List GF64Element) : Prop where
  length : values.length = 2 ^ (k - i)
  canonical : ∀ j, j < 2 ^ (k - i) → Canonical (values.getD j 0)
  eval : ∀ j, j < 2 ^ (k - i) → toField (values.getD j 0) = P.eval (domainRoot k ^ (2 ^ i * j))

/-- The polynomial with the given coefficients. -/
noncomputable def coeffPoly (coeffs : List GF64Element) : F[X] :=
  ∑ t ∈ Finset.range coeffs.length, C (toField (coeffs.getD t 0)) * X ^ t

theorem coeff_coeffPoly (coeffs : List GF64Element) (t : Nat) :
    (coeffPoly coeffs).coeff t = toField (coeffs.getD t 0) := by
  unfold coeffPoly
  rw [finsetSum_coeff]
  simp only [coeff_C_mul_X_pow]
  rw [Finset.sum_ite_eq]
  split_ifs with h
  · rfl
  · rw [Finset.mem_range, not_lt] at h
    rw [List.getD_eq_default _ _ h, toField_zero]

theorem degree_coeffPoly_lt (coeffs : List GF64Element) :
    (coeffPoly coeffs).degree < coeffs.length := by
  rw [degree_lt_iff_coeff_zero]
  intro t ht
  rw [coeff_coeffPoly, List.getD_eq_default _ _ ht, toField_zero]

theorem eval_of_degree_lt (h : P.degree < n) (x : F) :
    P.eval x = ∑ t ∈ Finset.range n, P.coeff t * x ^ t := by
  by_cases hP : P = 0
  · simp [hP]
  · exact eval_eq_sum_range' ((natDegree_lt_iff_degree_lt hP).mpr h) x

theorem domainRoot_pow_half {k : Nat} (hk : k ≤ 32) (h0 : k ≠ 0) :
    domainRoot k ^ 2 ^ (k - 1) = -1 := by
  refine IsPrimitiveRoot.eq_neg_one_of_two_right ((isPrimitiveRoot_generator hk).pow ?_ ?_)
  · positivity
  · rw [← pow_succ, Nat.sub_add_cancel (Nat.pos_of_ne_zero h0)]

theorem getD_append_replicate_zero (coeffs : List GF64Element) (m t : Nat) :
    (coeffs ++ List.replicate m 0).getD t 0 = coeffs.getD t 0 := by
  by_cases h : t < coeffs.length
  · rw [List.getD_append _ _ _ _ h]
  · rw [not_lt] at h
    rw [List.getD_append_right _ _ _ _ h, List.getD_eq_default coeffs _ h, List.getD_eq_getElem?_getD]
    rw [List.getElem?_replicate]
    split_ifs <;> rfl

/-- The transform with a root of unity: entry `j` is the sum of the entries
times the powers of the root's power `j`. -/
theorem gf64NTT_spec {k : Nat} (hk : k ≤ 32) {omega : GF64Element}
    (hω : k ≠ 0 → toField omega ^ 2 ^ (k - 1) = -1) (hlen : a.length = 2 ^ k)
    (hcan : ∀ t, Canonical (a.getD t 0)) : (gf64NTT a omega).length = 2 ^ k ∧ ∀ j, j < 2 ^ k →
      Canonical ((gf64NTT a omega).getD j 0) ∧ toField ((gf64NTT a omega).getD j 0) =
        ∑ t ∈ Finset.range (2 ^ k), toField (a.getD t 0) * toField omega ^ (j * t) := by
  have hroot : ∀ s, s < k → Canonical (gf64Pow omega (UInt64.ofNat (2 ^ k / 2 ^ (s + 1)))) ∧
      toField (gf64Pow omega (UInt64.ofNat (2 ^ k / 2 ^ (s + 1)))) =
        toField omega ^ 2 ^ (k - 1 - s) := by
    intro s hs
    have hdiv : 2 ^ k / 2 ^ (s + 1) = 2 ^ (k - 1 - s) := by
      rw [Nat.pow_div (by omega) two_pos]
      congr 1
      omega
    have hlt : 2 ^ (k - 1 - s) < 2 ^ 64 := Nat.pow_lt_pow_right (by decide) (by omega)
    refine ⟨canonical_pow _ _, ?_⟩
    rw [toField_pow, hdiv, UInt64.toNat_ofNat_of_lt' hlt]
  have hspec := Butterfly.transform_eq gf64Represents hω hroot hcan
  refine ⟨by rw [gf64NTT, List.length_map, List.length_range, hlen], fun j hj => ?_⟩
  have hget : (gf64NTT a omega).getD j 0 = Butterfly.transform gf64Ops k
      (fun s => gf64Pow omega (UInt64.ofNat (2 ^ k / 2 ^ (s + 1)))) (fun t => a.getD t 0) j := by
    unfold gf64NTT
    rw [hlen, gf64Log2_two_pow, List.getD_eq_getElem?_getD, List.getElem?_map,
      List.getElem?_range hj]
    rfl
  rw [hget]
  exact hspec j hj

/-- The transform evaluates: the codeword of some coefficients is the values
of their polynomial. -/
theorem reedSolomon_spec {k : Nat} (hk : k ≤ 32) (hlen : coeffs.length ≤ 2 ^ k)
    (hcan : ∀ t, Canonical (coeffs.getD t 0)) :
    ∃ codeword, gf64ReedSolomonExtend coeffs (2 ^ k) = some codeword ∧
      Evaluates k 0 (coeffPoly coeffs) codeword := by
  have hpos : (0 : Int) < 2 ^ k := by positivity
  have hpow : powerOfTwo (2 ^ k) = true := powerOfTwo_iff.mpr ⟨k, rfl⟩
  have hlen' : ¬ ((2 : Int) ^ k ≤ 0 ∨ (2 : Int) ^ k < coeffs.length) := by
    have : (coeffs.length : Int) ≤ ((2 ^ k : Nat) : Int) := by exact_mod_cast hlen
    push_cast at this
    omega
  have hpad : (coeffs ++ List.replicate (2 ^ k - coeffs.length) 0).length = 2 ^ k := by
    rw [List.length_append, List.length_replicate]
    omega
  obtain ⟨hlength, hspec⟩ := gf64NTT_spec hk (domainRoot_pow_half hk) hpad fun t => by
    rw [getD_append_replicate_zero]
    exact hcan t
  refine ⟨_, ?_, hlength, fun j hj => (hspec j hj).1, fun j hj => ?_⟩
  · unfold gf64ReedSolomonExtend
    rw [if_neg hlen', hpow, toNat_two_pow, gf64Log2_two_pow, if_neg (gf64Generator_ne_zero hk)]
    rfl
  · have hdeg : (coeffPoly coeffs).degree < (2 ^ k : Nat) :=
      (degree_coeffPoly_lt coeffs).trans_le (by exact_mod_cast hlen)
    rw [eval_of_degree_lt hdeg]
    refine (hspec j hj).2.trans (Finset.sum_congr rfl fun t _ => ?_)
    rw [getD_append_replicate_zero, coeff_coeffPoly, pow_zero, one_mul, ← pow_mul]
    rfl

/-! ## The inverse transform -/

theorem canonical_getD_of_lt (hlen : l.length = n) (h : ∀ j, j < n → Canonical (l.getD j 0))
    (t : Nat) : Canonical (l.getD t 0) := by
  by_cases ht : t < n
  · exact h t ht
  · rw [List.getD_eq_default _ _ (by omega)]
    decide +kernel

theorem canonical_getD (h : ∀ e ∈ l, Canonical e) (t : Nat) : Canonical (l.getD t 0) := by
  rw [List.getD_eq_getElem?_getD]
  cases ht : l[t]? with
  | none => exact prime_pos
  | some e => exact h e (List.mem_of_getElem? ht)

theorem two_ne_zero_field : (2 : F) ≠ 0 := by decide +kernel

theorem eq_of_toField_getD {b : List GF64Element} (ha : a.length = n) (hb : b.length = n)
    (h : ∀ j, j < n → Canonical (a.getD j 0) ∧ Canonical (b.getD j 0) ∧
      toField (a.getD j 0) = toField (b.getD j 0)) : a = b := by
  refine List.ext_getElem (ha.trans hb.symm) fun j hja hjb => ?_
  obtain ⟨hca, hcb, hval⟩ := h j (ha ▸ hja)
  have heq := toField_inj hca hcb hval
  rwa [List.getD_eq_getElem _ _ hja, List.getD_eq_getElem _ _ hjb] at heq

/-- The inverse transform: the transform with the inverse root, divided by
the size. -/
theorem gf64INTT_spec {k : Nat} (hk : k ≤ 32) (hlen : a.length = 2 ^ k)
    (hcan : ∀ t, Canonical (a.getD t 0)) :
    ∃ c, gf64INTT a (gf64Generator k) = some c ∧ c.length = 2 ^ k ∧ ∀ j, j < 2 ^ k →
      Canonical (c.getD j 0) ∧ toField (c.getD j 0) =
        (∑ t ∈ Finset.range (2 ^ k), toField (a.getD t 0) * (domainRoot k)⁻¹ ^ (j * t)) *
          ((2 ^ k : Nat) : F)⁻¹ := by
  rcases Nat.eq_zero_or_pos k with rfl | hpos
  · refine ⟨a, if_pos hlen.le, hlen, fun j hj => ⟨hcan j, ?_⟩⟩
    obtain rfl : j = 0 := by omega
    rw [Nat.pow_zero, Finset.sum_range_one, pow_zero, mul_one, Nat.cast_one, inv_one,
      mul_one]
  · have hn : (UInt64.ofNat (2 ^ k)).toNat = 2 ^ k :=
      UInt64.toNat_ofNat_of_lt' (Nat.pow_lt_pow_right one_lt_two (by omega : k < 64))
    have hn0 : UInt64.ofNat (2 ^ k) ≠ 0 := by
      intro h
      rw [h] at hn
      exact absurd hn.symm (by positivity)
    obtain ⟨omegaInv, hω⟩ : ∃ w, gf64Inverse (gf64Generator k) = some w :=
      ⟨_, if_neg (gf64Generator_ne_zero hk)⟩
    obtain ⟨nInv, hnInv⟩ : ∃ w, gf64Inverse (UInt64.ofNat (2 ^ k)) = some w := ⟨_, if_neg hn0⟩
    have hvω : toField omegaInv = (domainRoot k)⁻¹ := toField_inverse hω
    have hvn : toField nInv = ((2 ^ k : Nat) : F)⁻¹ := by
      rw [toField_inverse hnInv, toField, hn]
    obtain ⟨hlength, hspec⟩ := gf64NTT_spec hk (a := a) (fun h0 => by
      rw [hvω, inv_pow, domainRoot_pow_half hk h0, inv_neg, inv_one]) hlen hcan
    have hgt : ¬ a.length ≤ 1 := by
      rw [hlen, not_le]
      exact Nat.one_lt_two_pow (by omega)
    refine ⟨_, ?_, (List.length_map (gf64Mul · nInv)).trans hlength, fun j hj => ?_⟩
    · unfold gf64INTT
      rw [if_neg hgt, hlen, hω, hnInv]
      rfl
    · obtain ⟨-, hval⟩ := hspec j hj
      rw [List.getD_eq_getElem _ _ (by rw [List.length_map, hlength]; exact hj), List.getElem_map,
        ← List.getD_eq_getElem _ 0, toField_mul, hval, hvω, hvn]
      exact ⟨canonical_mul _ _, rfl⟩

/-- The transform is evaluation at the powers of a root of order `2 ^ k`, and
the inverse transform undoes it from both sides. -/
theorem ntt_evaluates_and_inverts {k : Nat} (hk : k ≤ 32) (hlen : a.length = 2 ^ k)
    (hcan : ∀ e ∈ a, Canonical e) : orderOf (toField (gf64Generator k)) = 2 ^ k ∧
      (∀ i, i < 2 ^ k → Canonical ((gf64NTT a (gf64Generator k)).getD i 0) ∧
        toField ((gf64NTT a (gf64Generator k)).getD i 0) =
          (coeffPoly a).eval (toField (gf64Generator k) ^ i)) ∧
      gf64INTT (gf64NTT a (gf64Generator k)) (gf64Generator k) = some a ∧
      ∃ c, gf64INTT a (gf64Generator k) = some c ∧ gf64NTT c (gf64Generator k) = a := by
  have hcan' : ∀ t, Canonical (a.getD t 0) := canonical_getD hcan
  have hroot := isPrimitiveRoot_generator hk
  have hsize : ((2 ^ k : Nat) : F) ≠ 0 := by
    rw [Nat.cast_pow]
    exact pow_ne_zero k two_ne_zero_field
  obtain ⟨hlenN, hN⟩ := gf64NTT_spec hk (domainRoot_pow_half hk) hlen hcan'
  obtain ⟨c, hc, hlenC, hC⟩ := gf64INTT_spec hk hlen hcan'
  obtain ⟨b, hb, hlenB, hB⟩ := gf64INTT_spec hk hlenN
    (canonical_getD_of_lt hlenN fun j hj => (hN j hj).1)
  obtain ⟨hlenM, hM⟩ := gf64NTT_spec hk (domainRoot_pow_half hk) hlenC
    (canonical_getD_of_lt hlenC fun j hj => (hC j hj).1)
  refine ⟨hroot.eq_orderOf.symm, fun i hi => ⟨(hN i hi).1, ?_⟩, ?_, c, hc, ?_⟩
  · rw [(hN i hi).2, eval_of_degree_lt (degree_coeffPoly_lt a), hlen]
    refine Finset.sum_congr rfl fun t _ => ?_
    rw [coeff_coeffPoly, ← pow_mul]
  · rw [hb]
    refine congrArg some (eq_of_toField_getD hlenB hlen fun j hj => ⟨(hB j hj).1, hcan' j, ?_⟩)
    have hsum := Butterfly.sum_sum_inv hroot (fun t => toField (a.getD t 0)) hj
    rw [(hB j hj).2, ← div_eq_mul_inv, div_eq_iff hsize, mul_comm, ← hsum]
    refine Finset.sum_congr rfl fun t ht => ?_
    rw [(hN t (Finset.mem_range.mp ht)).2]
    rfl
  · refine eq_of_toField_getD hlenM hlen fun j hj => ⟨(hM j hj).1, hcan' j, ?_⟩
    have hsum := Butterfly.sum_sum_inv hroot.inv (fun t => toField (a.getD t 0)) hj
    rw [inv_inv] at hsum
    rw [(hM j hj).2, ← mul_right_inj' hsize, ← hsum, Finset.mul_sum]
    refine Finset.sum_congr rfl fun t ht => ?_
    rw [(hC t (Finset.mem_range.mp ht)).2, ← mul_assoc, mul_comm ((2 ^ k : Nat) : F),
      inv_mul_cancel_right₀ hsize]
    rfl

theorem ntt_evaluates_and_inverts_pair :
    gf64INTT (gf64NTT [3, 5] (gf64Generator 1)) (gf64Generator 1) = some [3, 5] :=
  have hcan : ∀ e ∈ [3, 5], Canonical e :=
    List.forall_mem_cons.mpr ⟨by decide +kernel, List.forall_mem_singleton.mpr (by decide +kernel)⟩
  (ntt_evaluates_and_inverts (k := 1) (by decide) rfl hcan).2.2.1

/-! ## Folding -/

theorem friFoldOne_spec {cEven cOdd x : GF64Element} (alpha : GF64Element) (he : Canonical cEven)
    (ho : Canonical cOdd) (hx : toField x ≠ 0) :
    ∃ r, friFoldOne cEven cOdd x alpha = some r ∧ Canonical r ∧
      toField r = (toField cEven + toField cOdd) * 2⁻¹ +
        toField alpha * ((toField cEven - toField cOdd) * (2⁻¹ * (toField x)⁻¹)) := by
  have hx0 : x ≠ 0 := by
    rintro rfl
    exact hx toField_zero
  have htwo : gf64Inverse 2 = some (gf64Pow 2 (goldilocksP - 2)) := if_neg (by decide)
  have hinv : gf64Inverse x = some (gf64Pow x (goldilocksP - 2)) := if_neg hx0
  have h2 : toField (gf64Pow 2 (goldilocksP - 2)) = 2⁻¹ := toField_inverse htwo
  unfold friFoldOne
  rw [htwo, hinv, Option.map_some, Option.getD_some]
  refine ⟨_, rfl, canonical_add (canonical_mul _ _) (canonical_mul _ _), ?_⟩
  rw [toField_add (canonical_mul _ _) (canonical_mul _ _), toField_mul, toField_mul, toField_mul,
    toField_mul, toField_add he ho, toField_sub he ho, h2, toField_inverse hinv]

theorem mapM_eq_some_map {α β : Type} {f : α → Option β} {g : α → β} {l : List α}
    (h : ∀ x ∈ l, f x = some (g x)) : l.mapM f = some (l.map g) := by
  induction l with
  | nil => rfl
  | cons x l ih =>
    rw [List.mapM_cons, h x List.mem_cons_self, ih fun y hy => h y (List.mem_cons_of_mem _ hy)]
    rfl

/-- The points of a layer: the upper half is the negative of the lower one,
and their squares are the points of the next. -/
theorem layer_points {k : Nat} (hk : k ≤ 32) (hi : i < k) (j : Nat) :
    domainRoot k ^ (2 ^ i * (j + 2 ^ (k - (i + 1)))) = -domainRoot k ^ (2 ^ i * j) ∧
      (domainRoot k ^ (2 ^ i * j)) ^ 2 = domainRoot k ^ (2 ^ (i + 1) * j) := by
  constructor
  · have hexp : 2 ^ i * 2 ^ (k - (i + 1)) = 2 ^ (k - 1) := by
      rw [← pow_add]
      congr 1
      omega
    rw [mul_add, hexp, pow_add, domainRoot_pow_half hk (by omega), mul_neg_one]
  · ring

/-- Folding the values of a polynomial gives the values of its fold. -/
theorem friFold_spec {k : Nat} (hk : k ≤ 32) (hi : i < k) {values : List GF64Element}
    (alpha : GF64Element) (hv : Evaluates k i P values)
    (hdom : friGenerateLayerDomain i (2 ^ k) = some domain) :
    ∃ folded, friFold values domain alpha = some folded ∧
      Evaluates k (i + 1) (PolyFold.fold (toField alpha) P) folded ∧
      ∀ j, j < 2 ^ (k - (i + 1)) → friFoldOne (values.getD j 0)
        (values.getD (j + 2 ^ (k - (i + 1))) 0) (domain.getD j 0) alpha = some (folded.getD j 0) := by
  obtain ⟨domain', hdom', hdlen, hpts⟩ := layerDomain_spec hk hi.le
  obtain rfl : domain' = domain := Option.some.inj (hdom'.symm.trans hdom)
  have hpow : 2 ^ (k - i) = 2 ^ (k - (i + 1)) + 2 ^ (k - (i + 1)) := by
    rw [← two_mul, ← pow_succ']
    congr 1
    omega
  have hhalf : values.length / 2 = 2 ^ (k - (i + 1)) := by
    rw [hv.length]
    omega
  have hpos : 0 < 2 ^ (k - (i + 1)) := by positivity
  have hroot : domainRoot k ≠ 0 := (isPrimitiveRoot_generator hk).ne_zero (by positivity)
  have hone : ∀ j, j < 2 ^ (k - (i + 1)) → ∃ r, friFoldOne (values.getD j 0)
      (values.getD (j + 2 ^ (k - (i + 1))) 0) (domain'.getD j 0) alpha = some r ∧ Canonical r ∧
      toField r = (PolyFold.fold (toField alpha) P).eval (domainRoot k ^ (2 ^ (i + 1) * j)) := by
    intro j hj
    have hx := (hpts j (by omega)).2
    obtain ⟨r, hr, hcan, hval⟩ := friFoldOne_spec alpha (hv.canonical j (by omega))
      (hv.canonical (j + 2 ^ (k - (i + 1))) (by omega)) (x := domain'.getD j 0) (by
        rw [hx]
        exact pow_ne_zero _ hroot)
    refine ⟨r, hr, hcan, ?_⟩
    rw [hval, hv.eval j (by omega), hv.eval _ (by omega), hx, (layer_points hk hi j).1,
      ← (layer_points hk hi j).2, PolyFold.eval_fold two_ne_zero_field _ _ (pow_ne_zero _ hroot)]
  choose! g hg hcan hval using hone
  have hmap := mapM_eq_some_map (l := List.range (2 ^ (k - (i + 1)))) (g := g)
    fun j hj => hg j (List.mem_range.mp hj)
  have hget : ∀ j, j < 2 ^ (k - (i + 1)) →
      ((List.range (2 ^ (k - (i + 1)))).map g).getD j 0 = g j := by
    intro j hj
    rw [List.getD_eq_getElem?_getD, List.getElem?_map, List.getElem?_range hj]
    rfl
  refine ⟨(List.range (2 ^ (k - (i + 1)))).map g, ?_, ⟨?_, ?_, ?_⟩, ?_⟩
  · unfold friFold
    rw [hhalf, if_neg (by rw [hv.length]; omega), if_neg (by rw [hdlen]; omega)]
    exact hmap
  · rw [List.length_map, List.length_range]
  · intro j hj
    rw [hget j hj]
    exact hcan j hj
  · intro j hj
    rw [hget j hj]
    exact hval j hj
  · intro j hj
    rw [hget j hj]
    exact hg j hj

/-! ## Layers -/

def layerRoots (layers : List FriLayer) : List Digest := layers.map fun layer => layer.merkleTree 0

theorem layerRoots_append (layers : List FriLayer) (layer : FriLayer) :
    layerRoots (layers ++ [layer]) = layerRoots layers ++ [layer.merkleTree 0] := by
  unfold layerRoots
  rw [List.map_append, List.map_singleton]

theorem take_layerRoots_append {layers : List FriLayer} (h : n ≤ layers.length) (layer : FriLayer) :
    (layerRoots (layers ++ [layer])).take n = (layerRoots layers).take n := by
  rw [layerRoots_append, List.take_append_of_le_length (by rwa [layerRoots, List.length_map])]

section Layers

variable (sha256 : Bytes → Digest) (k : Nat) (Q : Nat → F[X] → Prop)

/-- Each layer has its own tree and holds the values of a polynomial that
`Q` allows there; the next one is its fold with the challenge of the roots
so far. -/
structure Layered (layers : List FriLayer) : Prop where
  tree : ∀ layer ∈ layers, layer.merkleTree = friBuildMerkleTree sha256 layer.values
  values : ∀ i layer, layers[i]? = some layer → ∃ P, Q i P ∧ Evaluates k i P layer.values
  folds : ∀ i layer next, layers[i]? = some layer → layers[i + 1]? = some next →
    ∃ domain, friGenerateLayerDomain i (2 ^ k) = some domain ∧
      ∀ j, j < 2 ^ (k - (i + 1)) → friFoldOne (layer.values.getD j 0)
        (layer.values.getD (j + 2 ^ (k - (i + 1))) 0) (domain.getD j 0)
        (challengeOf sha256 ((layerRoots layers).take (i + 1))) = some (next.values.getD j 0)

variable {sha256 k Q} {layers : List FriLayer}

theorem Layered.append (h : Layered sha256 k Q layers) (next : FriLayer)
    (hlen : layers.length = i + 1) (hlast : layers[i]? = some layer)
    (htree : next.merkleTree = friBuildMerkleTree sha256 next.values) (hQ : Q (i + 1) P)
    (hvalues : Evaluates k (i + 1) P next.values)
    (hdom : friGenerateLayerDomain i (2 ^ k) = some domain)
    (hfolds : ∀ j, j < 2 ^ (k - (i + 1)) → friFoldOne (layer.values.getD j 0)
      (layer.values.getD (j + 2 ^ (k - (i + 1))) 0) (domain.getD j 0)
      (challengeOf sha256 (layerRoots layers)) = some (next.values.getD j 0)) :
    Layered sha256 k Q (layers ++ [next]) := by
  refine ⟨forall_mem_snoc h.tree htree, fun t layer' ht => ?_, fun t layer' next' ht ht' => ?_⟩
  · rcases Nat.lt_or_ge t layers.length with hlt | hge
    · rw [List.getElem?_append_left hlt] at ht
      exact h.values t layer' ht
    · rw [List.getElem?_append_right hge, List.getElem?_singleton] at ht
      split_ifs at ht with h0
      obtain rfl : t = i + 1 := by omega
      obtain rfl : next = layer' := Option.some.inj ht
      exact ⟨P, hQ, hvalues⟩
  · rcases Nat.lt_or_ge (t + 1) layers.length with hlt | hge
    · rw [List.getElem?_append_left (by omega)] at ht
      rw [List.getElem?_append_left hlt] at ht'
      rw [take_layerRoots_append (by omega)]
      exact h.folds t layer' next' ht ht'
    · rw [List.getElem?_append_right hge, List.getElem?_singleton] at ht'
      split_ifs at ht' with h0
      obtain rfl : t = i := by omega
      obtain rfl : next = next' := Option.some.inj ht'
      rw [List.getElem?_append_left (by omega), hlast] at ht
      obtain rfl : layer = layer' := Option.some.inj ht
      rw [take_layerRoots_append (by omega), List.take_of_length_le (by
        rw [layerRoots, List.length_map, hlen])]
      exact ⟨domain, hdom, hfolds⟩

/-- The folding loop goes through all its rounds while the layers are longer
than the final size. -/
theorem foldLayers_spec (hk : k ≤ 32) (hcfg : cfg.domainSize = 2 ^ k)
    (hQ : ∀ i α P, Q i P → Q (i + 1) (PolyFold.fold α P)) {rounds : Nat} (hi : i + rounds ≤ k)
    (hsize : ∀ t, t < i + rounds → cfg.finalLayerSize < 2 ^ (k - t)) (h : Layered sha256 k Q layers)
    (hlen : layers.length = i + 1) (hlast : layers[i]? = some layer) :
    ∃ layers' layer', foldLayers sha256 cfg rounds i layer.values (layerRoots layers) layers =
        some (layer'.values, layerRoots layers', layers') ∧
      Layered sha256 k Q layers' ∧ layers'.length = i + rounds + 1 ∧
      layers'[i + rounds]? = some layer' ∧ layers'[0]? = layers[0]? := by
  induction rounds generalizing i layers layer with
  | zero => exact ⟨layers, layer, rfl, h, hlen, hlast, rfl⟩
  | succ rounds ih =>
    obtain ⟨P, hP, hvals⟩ := h.values i layer hlast
    obtain ⟨domain, hdom, -, -⟩ := layerDomain_spec hk (i := i) (by omega)
    obtain ⟨domain', hdom', -, -⟩ := layerDomain_spec hk (i := i + 1) (by omega)
    obtain ⟨folded, hfold, hfolded, hone⟩ :=
      friFold_spec hk (by omega) (challengeOf sha256 (layerRoots layers)) hvals hdom
    have hnext := h.append ⟨folded, friBuildMerkleTree sha256 folded⟩ hlen hlast rfl
      (hQ i _ P hP) hfolded hdom hone
    have hlong : ¬ (layer.values.length : Int) ≤ cfg.finalLayerSize := by
      have := hsize i (by omega)
      rw [hvals.length]
      push_cast
      omega
    obtain ⟨layers', layer', hrun, hlayered, hlen', hlast', hfirst⟩ :=
      ih (i := i + 1) (by omega) (fun t ht => hsize t (by omega)) hnext
        (by rw [List.length_append, hlen, List.length_singleton])
        (by rw [List.getElem?_append_right hlen.le, hlen, Nat.sub_self]; rfl)
    refine ⟨layers', layer', ?_, hlayered, by omega, ?_, ?_⟩
    · rw [foldLayers, if_neg hlong, hcfg, hdom, hdom']
      rw [layerRoots_append] at hrun
      show (friFold _ _ _).bind _ = _
      rw [hfold]
      exact hrun
    · rw [← hlast']
      congr 1
      omega
    · rw [hfirst, List.getElem?_append_left (by omega)]

variable (sha256 k Q) in
/-- What `FRICommit` returns for a configuration and a codeword. -/
structure Committed (cfg : FRIConfig) (codeword : List GF64Element) (c : FRICommitment)
    (layers : List FriLayer) : Prop where
  layered : Layered sha256 k Q layers
  length : layers.length = k - gf64Log2 cfg.finalLayerSize.toNat + 1
  first : ∃ layer, layers[0]? = some layer ∧ layer.values = codeword
  last : ∃ layer, layers[k - gf64Log2 cfg.finalLayerSize.toNat]? = some layer ∧
    layer.values = c.finalValues
  roots : c.layerRoots = layerRoots layers
  numLayers : c.numLayers = (k - gf64Log2 cfg.finalLayerSize.toNat : Nat)
  domainSize : c.domainSize = 2 ^ k

theorem friCommit_spec (hk : k ≤ 32) (hcfg : cfg.domainSize = 2 ^ k) (hF : 0 < cfg.finalLayerSize)
    (hQ : ∀ i α P, Q i P → Q (i + 1) (PolyFold.fold α P)) (hP : Q 0 P)
    (hcode : Evaluates k 0 P codeword) :
    ∃ c layers, friCommit sha256 codeword cfg = some (c, layers) ∧
      Committed sha256 k Q cfg codeword c layers := by
  obtain ⟨domain, hdom, -, -⟩ := layerDomain_spec hk (i := 0) (Nat.zero_le k)
  have hone : Layered sha256 k Q [⟨codeword, friBuildMerkleTree sha256 codeword⟩] := by
    refine ⟨fun layer hl => ?_, fun i layer hl => ?_, fun i layer next _ hl => ?_⟩
    · rw [List.mem_singleton.mp hl]
    · rw [List.getElem?_singleton] at hl
      split_ifs at hl with h0
      rw [h0, ← Option.some.inj hl]
      exact ⟨P, hP, hcode⟩
    · cases hl
  have hsize : ∀ t, t < 0 + (k - gf64Log2 cfg.finalLayerSize.toNat) →
      cfg.finalLayerSize < 2 ^ (k - t) := by
    intro t ht
    have hlt : cfg.finalLayerSize.toNat < 2 ^ (gf64Log2 cfg.finalLayerSize.toNat + 1) := Nat.lt_log2_self
    have hle : 2 ^ (gf64Log2 cfg.finalLayerSize.toNat + 1) ≤ 2 ^ (k - t) :=
      Nat.pow_le_pow_right two_pos (by omega)
    have : ((2 ^ (k - t) : Nat) : Int) = 2 ^ (k - t) := by
      rfl
    omega
  obtain ⟨layers, layer, hrun, hlayered, hlen, hlast, hfirst⟩ :=
    foldLayers_spec hk hcfg hQ (i := 0) (by omega) hsize hone rfl rfl
  rw [Nat.zero_add] at hlen hlast
  refine ⟨⟨layerRoots layers, layer.values, (layers.length : Int) - 1, cfg.domainSize⟩, layers, ?_,
    ⟨hlayered, hlen, ⟨_, hfirst, rfl⟩, ⟨layer, hlast, rfl⟩, rfl, ?_, hcfg⟩⟩
  · unfold friCommit
    have hlen0 : ¬ (codeword.length : Int) ≠ 2 ^ k := by
      rw [hcode.length]
      exact not_not.mpr rfl
    have hpow : powerOfTwo (2 ^ k) = true := powerOfTwo_iff.mpr ⟨k, rfl⟩
    rw [hcfg, if_neg hlen0, hpow, if_neg (not_le.mpr hF), hdom, toNat_two_pow,
      gf64Log2_two_pow]
    change foldLayers sha256 cfg _ 0 codeword [friBuildMerkleTree sha256 codeword 0] _ = _ at hrun
    show (foldLayers sha256 cfg _ 0 codeword _ _).bind _ = _
    rw [hrun]
    rfl
  · rw [hlen]
    push_cast
    ring

end Layers

/-! ## Blobs -/

/-- The coefficients that a blob is committed as. -/
def blobCoeffs (polyDegree : Nat) (blob : Bytes) : List GF64Element :=
  (friBlobToFieldElements blob ++
    List.replicate (polyDegree - (friBlobToFieldElements blob).length) 0).take polyDegree

theorem length_blobCoeffs (polyDegree : Nat) (blob : Bytes) :
    (blobCoeffs polyDegree blob).length = polyDegree := by
  rw [blobCoeffs, List.length_take, List.length_append, List.length_replicate]
  omega

theorem canonical_blobCoeffs (polyDegree : Nat) (blob : Bytes) (t : Nat) :
    Canonical ((blobCoeffs polyDegree blob).getD t 0) := by
  refine canonical_getD (fun e he => ?_) t
  rcases List.mem_append.mp (List.mem_of_mem_take he) with he | he
  · obtain ⟨i, -, rfl⟩ := List.mem_map.mp he
    exact canonical_gf64FromBytes _
  · rw [List.eq_of_mem_replicate he]
    exact prime_pos

section Commit

variable {sha256 : Bytes → Digest} {k : Nat} {Q : Nat → F[X] → Prop} {cfg : FRIConfig} {blob : Bytes}

theorem toNat_tdiv (hR : 0 < cfg.codeRate) (hcfg : cfg.domainSize = 2 ^ k) :
    (cfg.domainSize.tdiv cfg.codeRate).toNat = 2 ^ k / cfg.codeRate.toNat := by
  obtain ⟨r, hr⟩ := Int.eq_ofNat_of_zero_le hR.le
  have hD : (2 : Int) ^ k = ((2 ^ k : Nat) : Int) := by
    push_cast
    rfl
  rw [hcfg, hr, hD, ← Int.ofNat_tdiv, Int.toNat_natCast, Int.toNat_natCast]

variable (sha256) in
theorem fridaCommitBlob_spec (hblob : blob ≠ []) (hR : 0 < cfg.codeRate)
    (hF : 0 < cfg.finalLayerSize) (hk : k ≤ 32) (hcfg : cfg.domainSize = 2 ^ k)
    (hQ : ∀ i α P, Q i P → Q (i + 1) (PolyFold.fold α P))
    (hP : Q 0 (coeffPoly (blobCoeffs (2 ^ k / cfg.codeRate.toNat) blob))) :
    ∃ data, fridaCommitBlob sha256 blob cfg = .ok data ∧
      Committed sha256 k Q cfg data.codeword data.commitment.toFRICommitment data.layers ∧
      data.commitment.toFRIConfig = cfg ∧
      Evaluates k 0 (coeffPoly (blobCoeffs (2 ^ k / cfg.codeRate.toNat) blob)) data.codeword := by
  obtain ⟨codeword, hcode, heval⟩ := reedSolomon_spec hk
    (by rw [length_blobCoeffs]; exact Nat.div_le_self _ _)
    (canonical_blobCoeffs (2 ^ k / cfg.codeRate.toNat) blob)
  obtain ⟨c, layers, hcommit, hc⟩ : ∃ c layers, friCommit sha256 codeword cfg = some (c, layers) ∧
      Committed sha256 k Q cfg codeword c layers := friCommit_spec hk hcfg hF hQ hP heval
  have hrun : friCommitBlob sha256 blob cfg = some (c, codeword, layers) := by
    unfold friCommitBlob
    dsimp only
    rw [toNat_tdiv hR hcfg, hcfg]
    change gf64ReedSolomonExtend (blobCoeffs _ blob) _ >>= _ = _
    rw [hcode]
    show friCommit sha256 codeword cfg >>= _ = _
    rw [hcommit]
    rfl
  refine ⟨⟨⟨c.layerRoots, c.finalValues, c.numLayers, c.domainSize, cfg.codeRate, cfg.numQueries,
    cfg.finalLayerSize⟩, codeword, layers⟩, ?_, hc, ?_, heval⟩
  · have hpow : powerOfTwo cfg.domainSize = true := powerOfTwo_iff.mpr ⟨k, hcfg⟩
    have hpos : 0 < cfg.domainSize := by
      rw [hcfg]
      positivity
    unfold fridaCommitBlob
    rw [if_neg (fun h => hblob (List.length_eq_zero_iff.mp h)), if_neg (by omega), hpow,
      if_neg (by decide), hrun]
  · show (⟨c.domainSize, _, _, _⟩ : FRIConfig) = cfg
    rw [hc.domainSize, ← hcfg]

/-- The configurations with which blobs can be committed. -/
def Usable (cfg : FRIConfig) : Prop :=
  0 < cfg.codeRate ∧ 0 < cfg.finalLayerSize ∧ ∃ k : Nat, k ≤ 32 ∧ cfg.domainSize = 2 ^ k

theorem finalLayerSize_pos_of_friCommit {result : FRICommitment × List FriLayer}
    (h : friCommit sha256 codeword cfg = some result) : 0 < cfg.finalLayerSize := by
  by_contra hle
  unfold friCommit at h
  rw [if_pos (not_lt.mp hle)] at h
  split_ifs at h

/-- There is no root of unity for a domain of more than 2^32 points. -/
theorem le_of_reedSolomon (h : gf64ReedSolomonExtend coeffs (2 ^ k) = some codeword) : k ≤ 32 := by
  by_contra hk
  unfold gf64ReedSolomonExtend at h
  dsimp only at h
  rw [toNat_two_pow, gf64Log2_two_pow, gf64Generator, if_pos (not_le.mp hk), if_pos rfl] at h
  split_ifs at h

theorem usable_of_fridaCommitBlob {data : FRIDABlobData}
    (h : fridaCommitBlob sha256 blob cfg = .ok data) : blob ≠ [] ∧ Usable cfg := by
  unfold fridaCommitBlob at h
  split_ifs at h with hblob hpos hpow
  split at h
  · cases h
  next commitment codeword layers hrun =>
  rw [Bool.not_eq_true, Bool.not_eq_false', powerOfTwo_iff] at hpow
  obtain ⟨k, hk⟩ := hpow
  unfold friCommitBlob at hrun
  obtain ⟨codeword', hcode, hrest⟩ := Option.bind_eq_some_iff.mp hrun
  obtain ⟨result, hcommit, -⟩ := Option.bind_eq_some_iff.mp hrest
  exact ⟨fun hb => hblob (List.length_eq_zero_iff.mpr hb), by omega,
    finalLayerSize_pos_of_friCommit hcommit, k, le_of_reedSolomon (hk ▸ hcode), hk⟩

end Commit

end Qau.Fri
