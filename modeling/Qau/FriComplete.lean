import Qau.FriProver

/-!
# Which configurations are complete

For a commitment made by the prover only the degree test of the final layer
can fail (`fridaVerifyCell_iff`). A polynomial of degree below
`DomainSize / CodeRate` folds to one of degree below a quarter of the final
size if the rate is 4 or more; with rate 2 the power `x ^ (DomainSize / 4)`
is folded, whatever the challenges are, to one that fails the test. The
verifier's own limits, and a final size that leaves no layer to fold, account
for the rest (`complete_iff`).
-/

namespace Qau.Fri

open Polynomial

variable (sha256 : Bytes → Digest) {m j : Nat} {n d : Int}

/-- Every blob can be committed, and each of its cells is accepted with the
proof that is generated for it. -/
def Complete (cfg : FRIConfig) : Prop :=
  ∀ blob : Bytes, blob ≠ [] → ∃ data, fridaCommitBlob sha256 blob cfg = .ok data ∧
    ∀ cellIndex : Int, 0 ≤ cellIndex → cellIndex < cfg.domainSize →
      ∃ cell proof, fridaGetCellValue data cellIndex = .ok cell ∧
        fridaGenerateCellProof sha256 data cellIndex = .ok proof ∧
        fridaVerifyCell sha256 cell data.commitment proof cellIndex = true

/-- The limits of the verifier, and a rate that its degree test is made for. -/
structure Fits (cfg : FRIConfig) : Prop where
  layers : cfg.finalLayerSize < cfg.domainSize
  domainSize : cfg.domainSize ≤ maxFRIDADomainSize
  numQueries : cfg.numQueries ≤ maxFRIDANumQueries
  rate : 4 ≤ cfg.codeRate ∨ cfg.finalLayerSize < 4

variable {sha256} {k i : Nat} {cfg : FRIConfig} {P : F[X]} {values : List GF64Element}

/-! ## The degree test -/

theorem points_of_domain {domain : List GF64Element} (hk : k ≤ 32) (hi : i ≤ k)
    (hdom : friGenerateLayerDomain i (2 ^ k) = some domain) :
    Points domain (2 ^ (k - i)) ∧ domain.length = 2 ^ (k - i) ∧
      ∀ j, j < 2 ^ (k - i) → pointOf domain j = domainRoot k ^ (2 ^ i * j) := by
  obtain ⟨domain', hdom', hlen, hpts⟩ := layerDomain_spec hk hi
  obtain rfl : domain' = domain := Option.some.inj (hdom'.symm.trans hdom)
  exact ⟨⟨fun j hj => (hpts j hj).1, layerDomain_injOn hk hi hdom⟩, hlen, fun j hj => (hpts j hj).2⟩

/-- On the values of a polynomial the test asks for one of a quarter of the
degree with the same values. -/
theorem friVerifyFinalLowDegree_iff (hk : k ≤ 32) (hi : i ≤ k) (hv : Evaluates k i P values) :
    friVerifyFinalLowDegree values i (2 ^ k) = true ↔
      2 ^ (k - i) < 4 ∨ ∃ P' : F[X], P'.degree < (2 ^ (k - i) / 4 : Nat) ∧
        ∀ j, j < 2 ^ (k - i) → P'.eval (domainRoot k ^ (2 ^ i * j)) =
          P.eval (domainRoot k ^ (2 ^ i * j)) := by
  obtain ⟨domain, hdom, -⟩ := layerDomain_spec hk hi
  obtain ⟨hpts, hlen, hpoint⟩ := points_of_domain hk hi hdom
  unfold friVerifyFinalLowDegree
  dsimp only
  rw [hdom, hv.length]
  dsimp only
  rw [hlen, if_neg (lt_irrefl _)]
  by_cases h4 : 2 ^ (k - i) < 4
  · rw [if_pos (by omega : 2 ^ (k - i) / 4 < 1), ite_self]
    exact iff_of_true rfl (.inl h4)
  · rw [if_neg (by omega), if_neg (by omega), or_iff_right h4]
    rw [← hv.length] at hpts
    rw [extrapolates_iff hpts (by rw [hv.length]; exact Nat.div_le_self _ _), hv.length]
    constructor
    · rintro ⟨-, P', hdeg, heval⟩
      refine ⟨P', hdeg, fun j hj => ?_⟩
      rw [← hpoint j hj, heval j hj, hpoint j hj]
      exact hv.eval j hj
    · rintro ⟨P', hdeg, heval⟩
      refine ⟨fun j _ hj => hv.canonical j hj, P', hdeg, fun j hj => ?_⟩
      rw [hpoint j hj, heval j hj]
      exact (hv.eval j hj).symm

theorem friVerifyFinalLowDegree_of_degree (hk : k ≤ 32) (hi : i ≤ k) (hv : Evaluates k i P values)
    (hdeg : 4 ≤ 2 ^ (k - i) → P.degree < (2 ^ (k - i) / 4 : Nat)) :
    friVerifyFinalLowDegree values i (2 ^ k) = true := by
  rw [friVerifyFinalLowDegree_iff hk hi hv]
  by_cases h4 : 2 ^ (k - i) < 4
  · exact .inl h4
  · exact .inr ⟨P, hdeg (not_lt.mp h4), fun _ _ => rfl⟩

/-- A quarter of the points as the degree itself does not pass. -/
theorem friVerifyFinalLowDegree_X_pow (hk : k ≤ 32) (hi : i ≤ k) (h4 : 4 ≤ 2 ^ (k - i))
    (hv : Evaluates k i (X ^ (2 ^ (k - i) / 4)) values) :
    friVerifyFinalLowDegree values i (2 ^ k) = false := by
  rw [← Bool.not_eq_true, friVerifyFinalLowDegree_iff hk hi hv]
  rintro (hlt | ⟨P', hdeg, heval⟩)
  · omega
  · obtain ⟨domain, hdom, -⟩ := layerDomain_spec hk hi
    obtain ⟨hpts, -, hpoint⟩ := points_of_domain hk hi hdom
    have hinj : Set.InjOn (pointOf domain) (Finset.range (2 ^ (k - i))) := by
      rw [Finset.coe_range]
      exact hpts.injOn
    have hquarter : ((2 ^ (k - i) / 4 : Nat) : WithBot Nat) < (2 ^ (k - i) : Nat) := by
      exact_mod_cast (by omega : 2 ^ (k - i) / 4 < 2 ^ (k - i))
    have heq : P' = X ^ (2 ^ (k - i) / 4) := by
      refine eq_of_degrees_lt_of_eval_index_eq _ hinj ?_ ?_ fun j hj => ?_
      · rw [Finset.card_range]
        exact hdeg.trans hquarter
      · rw [Finset.card_range, degree_X_pow]
        exact hquarter
      · rw [hpoint j (Finset.mem_range.mp hj)]
        exact heval j (Finset.mem_range.mp hj)
    rw [heq, degree_X_pow] at hdeg
    exact lt_irrefl _ hdeg

/-! ## Folding down -/

theorem degree_fold_two_pow {a : Nat} {α : F} (h : P.degree < (2 ^ (a - i) : Nat)) :
    (PolyFold.fold α P).degree < (2 ^ (a - (i + 1)) : Nat) := by
  refine (PolyFold.degree_fold_lt h).trans_le ?_
  have hle : (2 ^ (a - i) + 1) / 2 ≤ 2 ^ (a - (i + 1)) := by
    rcases Nat.lt_or_ge i a with hlt | hge
    · rw [two_pow_half hlt]
      omega
    · rw [Nat.sub_eq_zero_of_le hge, Nat.sub_eq_zero_of_le (by omega)]
      exact le_refl 1
  exact_mod_cast hle

theorem fold_X_two_pow {α : F} (hP : i ≤ k → P = X ^ 2 ^ (k - i)) :
    i + 1 ≤ k → PolyFold.fold α P = X ^ 2 ^ (k - (i + 1)) := by
  intro hi
  rw [hP (by omega), two_pow_half (by omega : i < k), ← two_mul, PolyFold.fold_X_pow]

/-! ## The blob of one power -/

/-- Zero bytes up to word `m`, which is 1. -/
def powerBlob (m : Nat) : Bytes := List.replicate (8 * m) 0 ++ [1]

theorem friBlobToFieldElements_powerBlob (m : Nat) :
    friBlobToFieldElements (powerBlob m) = List.replicate m 0 ++ [1] := by
  have hlen : (powerBlob m).length = 8 * m + 1 := by
    rw [powerBlob, List.length_append, List.length_replicate, List.length_singleton]
  have hzero : gf64FromBytes (List.replicate 8 0) = 0 := by decide +kernel
  have hone : gf64FromBytes [1] = 1 := by decide +kernel
  unfold friBlobToFieldElements
  rw [hlen, show (8 * m + 1 + 7) / 8 = m + 1 by omega, List.range_succ, List.map_append,
    List.map_singleton]
  congr 1
  · refine List.ext_getElem (by simp) fun t ht ht' => ?_
    rw [List.length_map, List.length_range] at ht
    rw [List.getElem_map, List.getElem_range, List.getElem_replicate, powerBlob,
      List.drop_append_of_le_length (by rw [List.length_replicate]; omega), List.drop_replicate,
      List.take_append_of_le_length (by rw [List.length_replicate]; omega), List.take_replicate,
      Nat.min_eq_left (by omega), hzero]
  · rw [powerBlob, List.drop_append_of_le_length (by rw [List.length_replicate]), List.drop_replicate,
      Nat.sub_self]
    exact congrArg (fun e => [e]) hone

theorem coeffPoly_powerBlob {n : Nat} (hm : m < n) :
    coeffPoly (blobCoeffs n (powerBlob m)) = X ^ m := by
  ext t
  rw [coeff_coeffPoly, coeff_X_pow, blobCoeffs, friBlobToFieldElements_powerBlob,
    List.take_of_length_le (by simp; omega), getD_append_replicate_zero]
  rcases Nat.lt_trichotomy t m with hlt | rfl | hgt
  · rw [List.getD_append _ _ _ _ (by rwa [List.length_replicate]), if_neg (by omega),
      List.getD_eq_getElem _ _ (by rwa [List.length_replicate]), List.getElem_replicate, toField_zero]
  · rw [List.getD_append_right _ _ _ _ (by rw [List.length_replicate]), List.length_replicate,
      Nat.sub_self, if_pos rfl]
    exact toField_one
  · rw [List.getD_eq_default _ _ (by simp; omega), if_neg (by omega), toField_zero]

/-! ## Configurations -/

section Config

variable {r : Nat}

theorem log2_finalLayerSize (hF : 2 ≤ cfg.finalLayerSize) :
    (cfg.finalLayerSize < 2 ^ k ↔ gf64Log2 cfg.finalLayerSize.toNat < k) ∧
      (cfg.finalLayerSize < 4 ↔ gf64Log2 cfg.finalLayerSize.toNat < 2) := by
  have hlog : ∀ n, cfg.finalLayerSize < 2 ^ n ↔ gf64Log2 cfg.finalLayerSize.toNat < n := by
    intro n
    rw [gf64Log2, Nat.log2_lt (by omega)]
    have : ((2 ^ n : Nat) : Int) = 2 ^ n := by
      push_cast
      rfl
    omega
  exact ⟨hlog k, hlog 2⟩

variable (sha256) in
/-- A blob whose layers allow the properties `Q`: its cells are accepted
exactly if the final layer is. -/
theorem accepts_iff {Q : Nat → F[X] → Prop} (hk : k ≤ 31) (hcfg : cfg.domainSize = 2 ^ k)
    (hR : 0 < cfg.codeRate) (hF : 2 ≤ cfg.finalLayerSize)
    (hL : gf64Log2 cfg.finalLayerSize.toNat < k)
    (hq : 0 < cfg.numQueries ∧ cfg.numQueries ≤ maxFRIDANumQueries)
    (hQ : ∀ i α P, Q i P → Q (i + 1) (PolyFold.fold α P)) {blob : Bytes} (hblob : blob ≠ [])
    (hP : Q 0 (coeffPoly (blobCoeffs (2 ^ k / cfg.codeRate.toNat) blob))) :
    ∃ data values P, fridaCommitBlob sha256 blob cfg = .ok data ∧
      Q (k - gf64Log2 cfg.finalLayerSize.toNat) P ∧
      Evaluates k (k - gf64Log2 cfg.finalLayerSize.toNat) P values ∧
      ∀ idx : Int, 0 ≤ idx → idx < cfg.domainSize →
        ∃ cell proof, fridaGetCellValue data idx = .ok cell ∧
          fridaGenerateCellProof sha256 data idx = .ok proof ∧
          (fridaVerifyCell sha256 cell data.commitment proof idx = true ↔
            friVerifyFinalLowDegree values (k - gf64Log2 cfg.finalLayerSize.toNat) (2 ^ k) = true) := by
  obtain ⟨data, hcommit, hc, hconf, -⟩ := fridaCommitBlob_spec sha256 hblob hR (by omega) (by omega) hcfg hQ hP
  obtain ⟨last, hlast, hfinal⟩ := hc.last
  obtain ⟨P, hQP, hvalues⟩ := hc.layered.values _ last hlast
  have hnum : data.commitment.numLayers = (k - gf64Log2 cfg.finalLayerSize.toNat : Nat) := hc.numLayers
  have hD : data.commitment.domainSize = 2 ^ k := hc.domainSize
  have hvals : last.values = data.commitment.finalValues := hfinal
  refine ⟨data, last.values, P, hcommit, hQP, hvalues, fun idx h0 hlt => ?_⟩
  obtain ⟨cell, proof, hcell, hproof, hiff⟩ := fridaVerifyCell_iff hk hc hconf hR hF hL hq h0 (by
    rw [hcfg] at hlt
    exact_mod_cast hlt)
  rw [hnum, hD, Int.toNat_natCast, ← hvals] at hiff
  exact ⟨cell, proof, hcell, hproof, hiff⟩

theorem two_pow_rate (hcfg : cfg.domainSize = 2 ^ k) (hr : cfg.codeRate = 2 ^ r)
    (hdvd : cfg.codeRate ∣ cfg.domainSize) : r ≤ k ∧ 2 ^ k / cfg.codeRate.toNat = 2 ^ (k - r) := by
  have hle : r ≤ k := by
    rw [hcfg, hr] at hdvd
    exact (Nat.pow_dvd_pow_iff_le_right (show 1 < 2 by decide)).mp (by exact_mod_cast hdvd)
  exact ⟨hle, by rw [hr, toNat_two_pow, Nat.pow_div hle two_pos]⟩

/-- Within the limits every cell of every blob is accepted. -/
theorem complete_of_fits (h : Fits cfg) (hcfg : cfg.domainSize = 2 ^ k) (hr : cfg.codeRate = 2 ^ r)
    (hdvd : cfg.codeRate ∣ cfg.domainSize) (hq : 0 < cfg.numQueries) (hF : 2 ≤ cfg.finalLayerSize) :
    Complete sha256 cfg := by
  obtain ⟨hlayers, hmax, hqmax, hrate⟩ := h
  obtain ⟨hrk, hdeg⟩ := two_pow_rate hcfg hr hdvd
  obtain ⟨hlog, hlog4⟩ := log2_finalLayerSize (k := k) hF
  have hk : k ≤ 31 := by
    rw [hcfg, maxFRIDADomainSize] at hmax
    exact (pow_le_pow_iff_right₀ (by decide : (1 : Int) < 2)).mp hmax
  have hL : gf64Log2 cfg.finalLayerSize.toNat < k := hlog.mp (hcfg ▸ hlayers)
  have hR : 0 < cfg.codeRate := by
    rw [hr]
    positivity
  intro blob hblob
  obtain ⟨data, values, P, hcommit, hQP, hvalues, hcells⟩ :=
    accepts_iff sha256 (Q := fun i P => P.degree < (2 ^ (k - r - i) : Nat)) hk hcfg hR hF hL
      ⟨hq, hqmax⟩ (fun i α P hP => degree_fold_two_pow hP) hblob (by
        rw [Nat.sub_zero, hdeg]
        refine (degree_coeffPoly_lt _).trans_le ?_
        rw [length_blobCoeffs])
  refine ⟨data, hcommit, fun idx h0 hlt => ?_⟩
  obtain ⟨cell, proof, hcell, hproof, hiff⟩ := hcells idx h0 hlt
  refine ⟨cell, proof, hcell, hproof, hiff.mpr ?_⟩
  refine friVerifyFinalLowDegree_of_degree (by omega) (by omega) hvalues fun h4 => hQP.trans_le ?_
  have hkf : k - (k - gf64Log2 cfg.finalLayerSize.toNat) = gf64Log2 cfg.finalLayerSize.toNat := by omega
  rw [hkf] at h4 ⊢
  have hf : 2 ≤ gf64Log2 cfg.finalLayerSize.toNat :=
    (Nat.pow_le_pow_iff_right (by decide : 1 < 2)).mp h4
  have hr2 : 2 ≤ r := by
    have h4r : (2 : Int) ^ 2 ≤ 2 ^ r := by
      rw [← hr]
      exact hrate.resolve_right fun hlt => by omega
    exact (pow_le_pow_iff_right₀ (by decide : (1 : Int) < 2)).mp h4r
  rw [show 4 = 2 ^ 2 from rfl, Nat.pow_div hf two_pos]
  exact_mod_cast Nat.pow_le_pow_right two_pos (by omega)

/-- With rate 2 and four or more final values a power fails. -/
theorem not_complete_of_rate_two (hk : k ≤ 31) (hcfg : cfg.domainSize = 2 ^ k)
    (hr : cfg.codeRate = 2) (hq : 0 < cfg.numQueries ∧ cfg.numQueries ≤ maxFRIDANumQueries)
    (hF : 4 ≤ cfg.finalLayerSize) (hL : gf64Log2 cfg.finalLayerSize.toNat < k) :
    ¬ Complete sha256 cfg := by
  obtain ⟨-, hlog4⟩ := log2_finalLayerSize (k := k) (show 2 ≤ cfg.finalLayerSize by omega)
  have hf : 2 ≤ gf64Log2 cfg.finalLayerSize.toNat := by omega
  have hdeg : 2 ^ k / cfg.codeRate.toNat = 2 ^ (k - 1) := by
    rw [hr, show (2 : Int).toNat = 2 ^ 1 from rfl, Nat.pow_div (by omega) two_pos]
  have hlt : 2 ^ (k - 2) < 2 ^ (k - 1) := Nat.pow_lt_pow_right (by decide) (by omega)
  have hblob : powerBlob (2 ^ (k - 2)) ≠ [] := by simp [powerBlob]
  intro hcomplete
  obtain ⟨data, values, P, hcommit, hQP, hvalues, hcells⟩ :=
    accepts_iff sha256 (Q := fun i P => i ≤ k - 2 → P = X ^ 2 ^ (k - 2 - i)) hk hcfg (by omega) (by omega)
      hL hq (fun i α P hP => fold_X_two_pow hP) hblob (by
        intro _
        rw [hdeg, coeffPoly_powerBlob hlt, Nat.sub_zero])
  obtain ⟨data', hcommit', hall⟩ := hcomplete _ hblob
  obtain rfl : data' = data := Except.ok.inj (hcommit'.symm.trans hcommit)
  have hpos : (0 : Int) < cfg.domainSize := by
    rw [hcfg]
    positivity
  obtain ⟨cell, proof, hcell, hproof, hiff⟩ := hcells 0 (le_refl 0) hpos
  obtain ⟨cell', proof', hcell', hproof', hverify⟩ := hall 0 (le_refl 0) hpos
  obtain rfl : cell' = cell := Except.ok.inj (hcell'.symm.trans hcell)
  obtain rfl : proof' = proof := Except.ok.inj (hproof'.symm.trans hproof)
  have hkf : k - (k - gf64Log2 cfg.finalLayerSize.toNat) = gf64Log2 cfg.finalLayerSize.toNat := by omega
  have hexp : 2 ^ (k - 2 - (k - gf64Log2 cfg.finalLayerSize.toNat)) =
      2 ^ (k - (k - gf64Log2 cfg.finalLayerSize.toNat)) / 4 := by
    rw [hkf, show 4 = 2 ^ 2 from rfl, Nat.pow_div hf two_pos]
    congr 1
    omega
  rw [hQP (by omega), hexp] at hvalues
  have hfalse := friVerifyFinalLowDegree_X_pow (by omega) (by omega)
    (by rw [hkf]; exact Nat.pow_le_pow_right two_pos hf) hvalues
  rw [hiff, hfalse] at hverify
  cases hverify

/-- A complete configuration keeps to the verifier's limits. -/
theorem limits_of_complete (h : Complete sha256 cfg) :
    ∃ k : Nat, cfg.domainSize = 2 ^ k ∧ cfg.domainSize ≤ maxFRIDADomainSize ∧
      cfg.numQueries ≤ maxFRIDANumQueries ∧ gf64Log2 cfg.finalLayerSize.toNat < k := by
  obtain ⟨data, hcommit, hcells⟩ := h [1] (by decide)
  obtain ⟨hblob, hR, hF, k, hk, hcfg⟩ := usable_of_fridaCommitBlob hcommit
  obtain ⟨data', hcommit', hc, hconf, -⟩ := fridaCommitBlob_spec sha256 (Q := fun _ _ => True) hblob hR hF
    hk hcfg (fun _ _ _ _ => trivial) trivial
  obtain rfl : data' = data := Except.ok.inj (hcommit'.symm.trans hcommit)
  have hpos : (0 : Int) < cfg.domainSize := by
    rw [hcfg]
    positivity
  obtain ⟨cell, proof, -, -, hverify⟩ := hcells 0 (le_refl 0) hpos
  obtain ⟨-, ⟨-, hmax⟩, hnum, -, -, -, -, ⟨-, hqmax⟩, -⟩ := fridaVerifyCell_eq_true_iff.mp hverify
  have hD : data'.commitment.domainSize = 2 ^ k := hc.domainSize
  have hL : data'.commitment.numLayers = (k - gf64Log2 cfg.finalLayerSize.toNat : Nat) := hc.numLayers
  have hq : data'.commitment.numQueries = cfg.numQueries := congrArg FRIConfig.numQueries hconf
  refine ⟨k, hcfg, ?_, ?_, by omega⟩
  · rw [hcfg, ← hD]
    exact hmax
  · rw [← hq]
    exact hqmax

/-- For a configuration with a rate that is a power of two and divides the
domain: complete exactly within the limits. -/
theorem complete_iff (hcfg : cfg.domainSize = 2 ^ k) (hr : cfg.codeRate = 2 ^ r)
    (hr2 : 2 ≤ cfg.codeRate) (hdvd : cfg.codeRate ∣ cfg.domainSize) (hq : 0 < cfg.numQueries)
    (hF : 2 ≤ cfg.finalLayerSize) : Complete sha256 cfg ↔ Fits cfg := by
  refine ⟨fun h => ?_, fun h => complete_of_fits h hcfg hr hdvd hq hF⟩
  obtain ⟨k', hcfg', hmax, hqmax, hL⟩ := limits_of_complete h
  have hk : k' ≤ 31 := by
    rw [hcfg', maxFRIDADomainSize] at hmax
    exact (pow_le_pow_iff_right₀ (by decide : (1 : Int) < 2)).mp hmax
  refine ⟨?_, hmax, hqmax, ?_⟩
  · rw [hcfg']
    exact (log2_finalLayerSize hF).1.mpr hL
  · by_contra hno
    rw [not_or, not_le, not_lt] at hno
    have hr1 : cfg.codeRate = 2 := by
      have h1 : 1 ≤ r := (pow_le_pow_iff_right₀ (by decide : (1 : Int) < 2)).mp (by rw [← hr]; exact hr2)
      have h2 : r < 2 := (pow_lt_pow_iff_right₀ (by decide : (1 : Int) < 2)).mp (by rw [← hr]; exact hno.1)
      rw [hr, show r = 1 by omega, pow_one]
    exact not_complete_of_rate_two hk hcfg' hr1 ⟨hq, hqmax⟩ hno.2 hL h

/-! ## The default configuration -/

theorem wrapInt_two_pow (hm : m ≤ 62) : wrapInt (2 ^ m) = 2 ^ m := by
  have hlt : (2 : Int) ^ m < 2 ^ 63 := pow_lt_pow_right₀ (by decide) (by omega)
  have hpos : (0 : Int) < 2 ^ m := by positivity
  unfold wrapInt
  omega

theorem wrapInt_two_pow_nonpos (hm : 63 ≤ m) : wrapInt (2 ^ m) ≤ 0 := by
  obtain ⟨n, rfl⟩ := Nat.exists_eq_add_of_le hm
  cases n with
  | zero => decide
  | succ n =>
    have h : (2 : Int) ^ (63 + (n + 1)) = 2 ^ 64 * 2 ^ n := by
      rw [← pow_add]
      congr 1
      omega
    unfold wrapInt
    rw [h]
    omega

theorem roundUp_wrapped (hn : 0 < n) (fuel : Nat) : roundUp n fuel 0 = none := by
  induction fuel with
  | zero => rfl
  | succ fuel ih =>
    rw [roundUp, if_pos hn]
    exact ih

/-- The loop ends at a power of two that is not below `n`. -/
theorem roundUp_some {result : Int} (hn : 0 < n) {fuel : Nat} (hj : j ≤ 62)
    (h : roundUp n fuel (2 ^ j) = some result) :
    ∃ m : Nat, m ≤ 62 ∧ result = 2 ^ m ∧ n ≤ 2 ^ m := by
  induction fuel generalizing j with
  | zero => cases h
  | succ fuel ih =>
    rw [roundUp] at h
    split_ifs at h with hlt
    · rw [← pow_succ'] at h
      rcases Nat.lt_or_ge j 62 with hj62 | hj62
      · rw [wrapInt_two_pow (by omega)] at h
        exact ih (by omega) h
      · -- the counter wraps to -2^63 and then to 0
        obtain rfl : j = 62 := by omega
        rw [show wrapInt (2 ^ (62 + 1)) = -2 ^ 63 by decide] at h
        cases fuel with
        | zero => cases h
        | succ fuel =>
          rw [roundUp, if_pos (by omega), show wrapInt (2 * -2 ^ 63) = 0 by decide,
            roundUp_wrapped hn] at h
          cases h
    · exact ⟨j, hj, (Option.some.inj h).symm, not_lt.mp hlt⟩

/-- The loop finds a power of two up to 2^29 for all numbers up to it. -/
theorem roundUp_small (hn : n ≤ 2 ^ 29) (fuel : Nat) (hj : j ≤ 29) (hfuel : 29 < j + fuel) :
    ∃ m : Nat, m ≤ 29 ∧ roundUp n fuel (2 ^ j) = some (2 ^ m) ∧ n ≤ 2 ^ m := by
  induction fuel generalizing j with
  | zero => omega
  | succ fuel ih =>
    rw [roundUp]
    by_cases hlt : (2 : Int) ^ j < n
    · have hj29 : j < 29 := (pow_lt_pow_iff_right₀ (by decide : (1 : Int) < 2)).mp (hlt.trans_le hn)
      rw [if_pos hlt, ← pow_succ', wrapInt_two_pow (by omega)]
      exact ih (by omega) (by omega)
    · rw [if_neg hlt]
      exact ⟨j, hj, rfl, not_lt.mp hlt⟩

/-- The default configuration for the power of two `2 ^ m`. -/
def defaultFor (m : Nat) : FRIConfig := ⟨wrapInt (2 ^ (m + 2)), 4, 80, 4⟩

theorem defaultFRIConfig_some (hd : 1 ≤ d) {cfg : FRIConfig} (h : defaultFRIConfig d = some cfg) :
    ∃ m : Nat, d ≤ 2 ^ m ∧ cfg = defaultFor m := by
  have hfor : ∀ m : Nat, (⟨wrapInt (2 ^ m * 4), 4, 80, 4⟩ : FRIConfig) = defaultFor m := by
    intro m
    rw [defaultFor, pow_add]
    rfl
  unfold defaultFRIConfig at h
  dsimp only at h
  rw [if_neg (show ¬ d ≤ 0 by omega)] at h
  by_cases hpow : powerOfTwo d = true
  · rw [if_pos hpow, Option.map_some] at h
    obtain ⟨m, rfl⟩ := powerOfTwo_iff.mp hpow
    exact ⟨m, le_refl _, (Option.some.inj h).symm.trans (hfor m)⟩
  · rw [if_neg hpow] at h
    obtain ⟨result, hresult, rfl⟩ := Option.map_eq_some_iff.mp h
    obtain ⟨m, -, rfl, hle⟩ := roundUp_some (by omega) (j := 0) (by omega) hresult
    exact ⟨m, hle, hfor m⟩

theorem defaultFRIConfig_small (hd : 1 ≤ d) (hmax : d ≤ 2 ^ 29) :
    ∃ m : Nat, m ≤ 29 ∧ d ≤ 2 ^ m ∧ defaultFRIConfig d = some (defaultFor m) := by
  unfold defaultFRIConfig
  dsimp only
  rw [if_neg (show ¬ d ≤ 0 by omega)]
  by_cases hpow : powerOfTwo d = true
  · rw [if_pos hpow]
    obtain ⟨m, rfl⟩ := powerOfTwo_iff.mp hpow
    refine ⟨m, (pow_le_pow_iff_right₀ (by decide : (1 : Int) < 2)).mp hmax, le_refl _, ?_⟩
    rw [Option.map_some, defaultFor, pow_add]
    rfl
  · rw [if_neg hpow]
    obtain ⟨m, hm, hrun, hle⟩ := roundUp_small hmax 65 (j := 0) (by omega) (by omega)
    refine ⟨m, hm, hle, ?_⟩
    rw [show (1 : Int) = 2 ^ 0 from rfl, hrun, Option.map_some, defaultFor, pow_add]
    rfl

theorem complete_defaultFor_iff : Complete sha256 (defaultFor m) ↔ 1 ≤ m ∧ m ≤ 29 := by
  rcases Nat.lt_or_ge 60 m with hm | hm
  · -- the domain size has wrapped
    refine iff_of_false (fun h => ?_) (by omega)
    obtain ⟨k, hk, -⟩ := limits_of_complete h
    have hpos : (0 : Int) < 2 ^ k := by positivity
    have hle := wrapInt_two_pow_nonpos (m := m + 2) (by omega)
    change wrapInt (2 ^ (m + 2)) = _ at hk
    omega
  · have hD : (defaultFor m).domainSize = 2 ^ (m + 2) := wrapInt_two_pow (by omega)
    have hdvd : (defaultFor m).codeRate ∣ (defaultFor m).domainSize := by
      rw [hD, pow_add]
      exact dvd_mul_left _ _
    have hrate : (2 : Int) ≤ 4 ∧ (0 : Int) < 80 := by decide
    rw [complete_iff hD (r := 2) rfl hrate.1 hdvd hrate.2 hrate.1]
    constructor
    · rintro ⟨hlayers, hmax, -, -⟩
      rw [hD] at hlayers hmax
      have h2 : 2 < m + 2 := (pow_lt_pow_iff_right₀ (by decide : (1 : Int) < 2)).mp hlayers
      have h31 : m + 2 ≤ 31 := (pow_le_pow_iff_right₀ (by decide : (1 : Int) < 2)).mp hmax
      omega
    · rintro ⟨h1, h29⟩
      refine ⟨?_, ?_, (by decide : (80 : Int) ≤ 4096), .inl (le_refl 4)⟩
      · rw [hD]
        exact (pow_lt_pow_iff_right₀ (by decide : (1 : Int) < 2)).mpr (by omega : 2 < m + 2)
      · rw [hD]
        exact (pow_le_pow_iff_right₀ (by decide : (1 : Int) < 2)).mpr (by omega : m + 2 ≤ 31)

/-- A production configuration with a rate that is a power of two and divides
the domain is complete exactly within the limits; the default configuration
is for 2 to 2^29 coefficients. -/
theorem frida_complete_iff (sha256 : Bytes → Digest) :
    (∀ cfg, validateFRIConfigForProduction cfg = .ok () → powerOfTwo cfg.codeRate = true →
      cfg.codeRate ∣ cfg.domainSize → (Complete sha256 cfg ↔ Fits cfg)) ∧
    (∀ d : Int, 1 ≤ d →
      ((∃ cfg, defaultFRIConfig d = some cfg ∧ Complete sha256 cfg) ↔ 2 ≤ d ∧ d ≤ 2 ^ 29)) := by
  constructor
  · intro cfg hvalid hrate hdvd
    unfold validateFRIConfigForProduction at hvalid
    split_ifs at hvalid with hD hR hq hF
    rw [Bool.not_eq_true, Bool.not_eq_false'] at hD
    obtain ⟨k, hk⟩ := powerOfTwo_iff.mp hD
    obtain ⟨r, hr⟩ := powerOfTwo_iff.mp hrate
    have hq0 : 0 < cfg.numQueries := by
      rw [minProductionNumQueries] at hq
      omega
    exact complete_iff hk hr (by omega) hdvd hq0 (by omega)
  · intro d hd
    constructor
    · rintro ⟨cfg, hcfg, hcomplete⟩
      obtain ⟨m, hle, rfl⟩ := defaultFRIConfig_some hd hcfg
      have hm := complete_defaultFor_iff.mp hcomplete
      refine ⟨?_, hle.trans (pow_le_pow_right₀ (by decide) hm.2)⟩
      by_contra h2
      obtain rfl : d = 1 := by omega
      have hone : defaultFRIConfig 1 = some (defaultFor 0) := by decide +kernel
      rw [Option.some.inj (hcfg.symm.trans hone)] at hcomplete
      exact absurd (complete_defaultFor_iff.mp hcomplete).1 (by decide)
    · rintro ⟨h2, h29⟩
      obtain ⟨m, hm, hle, hcfg⟩ := defaultFRIConfig_small hd h29
      refine ⟨_, hcfg, complete_defaultFor_iff.mpr ⟨?_, hm⟩⟩
      by_contra h0
      rw [show m = 0 by omega, pow_zero] at hle
      omega

/-- The default configuration for two coefficients. -/
theorem frida_complete_two : Complete constantSha256 ⟨8, 4, 80, 4⟩ ∧
      ∃ cfg, defaultFRIConfig 2 = some cfg ∧ Complete constantSha256 cfg := by
  obtain ⟨hvalid, hdefault⟩ := frida_complete_iff constantSha256
  exact ⟨(hvalid ⟨8, 4, 80, 4⟩ (by decide) (by decide) (by decide)).mpr
      ⟨by decide, by decide, by decide, .inl (by decide)⟩,
    (hdefault 2 (by decide)).mpr (by decide)⟩

/-- A production configuration with rate 2 and four final values, and the
default configuration for one coefficient, whatever the hash function is. -/
theorem frida_complete_rate_two : ∃ cfg, validateFRIConfigForProduction cfg = .ok () ∧
      powerOfTwo cfg.codeRate = true ∧ cfg.codeRate ∣ cfg.domainSize ∧
      ∀ sha256 : Bytes → Digest, ¬ Complete sha256 cfg ∧
        ∀ cfg', defaultFRIConfig 1 = some cfg' → ¬ Complete sha256 cfg' := by
  refine ⟨⟨8, 2, 40, 4⟩, by decide, by decide, by decide, fun sha256 => ⟨?_, fun cfg' h => ?_⟩⟩
  · exact not_complete_of_rate_two (k := 3) (by decide) rfl rfl (by decide) (by decide) (by decide)
  · have hone : defaultFRIConfig 1 = some (defaultFor 0) := by decide +kernel
    rw [Option.some.inj (h.symm.trans hone), complete_defaultFor_iff]
    decide

end Config

end Qau.Fri
