import Qau.FriLowDegree

/-!
# What an accepted commitment has

`FRIVerify` checks every opened pair against the next layer, so along each
queried path the pairs fold to the final values (`PathFolds`). The shape of
the commitment is another matter: the domain size, the number of layers and
the number of final values are the prover's, and the configuration's own are
not compared with them; the degree test divides by 4 whatever the code rate
is, and lets fewer than four values pass. `friVerify_structure_iff` says when
an accepted commitment has the structure of its configuration;
`friVerify_structure_single` is any pair of values, folded to one.
-/

namespace Qau.Fri

open Polynomial

variable (sha256 : Bytes → Digest) {i : Nat} {lp : FriLayerProof}

/-! ## Paths -/

def FRICommitment.layerSize (c : FRICommitment) (i : Nat) : Int := c.domainSize / 2 ^ i

/-- The position that a pair of layer `i` folds to. -/
def FRICommitment.foldedIndex (c : FRICommitment) (i : Nat) (index : Int) : Int :=
  index % (c.layerSize i / 2)

/-- The pair of values in the order of the layer: the lower half first. -/
def FriLayerProof.pair (lp : FriLayerProof) (halfN : Int) : GF64Element × GF64Element :=
  if lp.index < halfN then (lp.value, lp.siblingValue) else (lp.siblingValue, lp.value)

/-- A layer proof opens a pair of layer `i` that folds to `next`. -/
structure Opens (c : FRICommitment) (i : Nat) (lp : FriLayerProof) (next : GF64Element) : Prop where
  size : 2 ≤ c.layerSize i
  index : 0 ≤ lp.index ∧ lp.index < c.layerSize i
  merkle : ∃ root, c.layerRoots[i]? = some root ∧
    friVerifyMerkleProof sha256 root lp.value lp.index (c.layerSize i) lp.merkleProof = true ∧
    friVerifyMerkleProof sha256 root lp.siblingValue (siblingIdx lp.index (c.layerSize i / 2))
      (c.layerSize i) lp.siblingMerkleProof = true
  folds : ∃ domain, friGenerateLayerDomain i c.domainSize = some domain ∧
    c.foldedIndex i lp.index < domain.length ∧
    friFoldOne (lp.pair (c.layerSize i / 2)).1 (lp.pair (c.layerSize i / 2)).2
      (domain.getD (c.foldedIndex i lp.index).toNat 0)
      (challengeOf sha256 (c.layerRoots.take (i + 1))) = some next

/-- The value goes on to the next layer proof, or to the final values. -/
def GoesOn (c : FRICommitment) (index : Int) (next : GF64Element) : Option FriLayerProof → Prop
  | some nextLp => nextLp.index = index ∧ nextLp.value = next
  | none => index < c.finalValues.length ∧ c.finalValues.getD index.toNat 0 = next

/-- Along the layer proofs of a query each opened pair folds to the value
opened next, and the last one to the final value at its position. -/
structure PathFolds (c : FRICommitment) (qIdx : Int) (layers : List FriLayerProof) : Prop where
  length : layers.length = c.numLayers
  first : ∀ lp, layers[0]? = some lp → lp.index = qIdx
  folds : ∀ (i : Nat) (lp : FriLayerProof), layers[i]? = some lp → ∃ next,
    Opens sha256 c i lp next ∧ GoesOn c (c.foldedIndex i lp.index) next layers[i + 1]?

variable {sha256} {c : FRICommitment}

theorem verifyPath_cons {rest : List FriLayerProof} : verifyPath sha256 c i (lp :: rest) = true ↔
      (∃ next, Opens sha256 c i lp next ∧ GoesOn c (c.foldedIndex i lp.index) next rest[0]?) ∧
        verifyPath sha256 c (i + 1) rest = true := by
  constructor
  · intro h
    unfold verifyPath at h
    dsimp only at h
    split at h
    · cases h
    next hsize =>
    split at h
    · cases h
    next hidx =>
    split at h
    · cases h
    next root hroot =>
    split at h
    · cases h
    next hm =>
    split at h
    · cases h
    next hm' =>
    split at h
    · cases h
    next domain hdom =>
    split at h
    · cases h
    next hj =>
    split at h
    · cases h
    next next hfold =>
    rw [Bool.and_eq_true] at h
    refine ⟨⟨next, ⟨not_lt.mp hsize, ?_, ⟨root, hroot, ?_, ?_⟩, domain, hdom, not_le.mp hj, hfold⟩,
      ?_⟩, h.2⟩
    · rwa [not_or, not_lt, not_le] at hidx
    · rwa [Bool.not_eq_true, Bool.not_eq_false'] at hm
    · rwa [Bool.not_eq_true, Bool.not_eq_false'] at hm'
    · cases rest with
      | nil => exact ⟨of_decide_eq_true (Bool.and_eq_true_iff.mp h.1).1,
          (of_decide_eq_true (Bool.and_eq_true_iff.mp h.1).2).symm⟩
      | cons nextLp rest => exact ⟨of_decide_eq_true (Bool.and_eq_true_iff.mp h.1).1,
          (of_decide_eq_true (Bool.and_eq_true_iff.mp h.1).2).symm⟩
  · rintro ⟨⟨next, ⟨hsize, hidx, ⟨root, hroot, hm, hm'⟩, domain, hdom, hj, hfold⟩, hnext⟩, hrest⟩
    unfold FRICommitment.foldedIndex FRICommitment.layerSize at *
    unfold verifyPath
    rw [if_neg (not_lt.mpr hsize), if_neg (by omega), hroot]
    dsimp only
    rw [hm, hm', hdom]
    dsimp only
    rw [if_neg (not_le.mpr hj)]
    unfold FriLayerProof.pair at hfold
    rw [hfold, hrest]
    dsimp only
    rw [Bool.and_true]
    cases rest with
    | nil => exact Bool.and_eq_true_iff.mpr ⟨decide_eq_true hnext.1, decide_eq_true hnext.2.symm⟩
    | cons nextLp rest =>
      exact Bool.and_eq_true_iff.mpr ⟨decide_eq_true hnext.1, decide_eq_true hnext.2.symm⟩

theorem verifyPath_folds {lps : List FriLayerProof} (h : verifyPath sha256 c i lps = true) {t : Nat}
    (hlp : lps[t]? = some lp) : ∃ next, Opens sha256 c (i + t) lp next ∧
      GoesOn c (c.foldedIndex (i + t) lp.index) next lps[t + 1]? := by
  induction lps generalizing i t with
  | nil => cases hlp
  | cons lp' rest ih =>
    obtain ⟨hfirst, hrest⟩ := verifyPath_cons.mp h
    cases t with
    | zero =>
      obtain rfl : lp' = lp := Option.some.inj hlp
      exact hfirst
    | succ t =>
      have := ih hrest hlp
      rwa [Nat.add_right_comm] at this

theorem pathFolds_of_verifyQuery {qIdx : Int} {query : FRIQueryProof}
    (h : verifyQuery sha256 c qIdx query = true) : PathFolds sha256 c qIdx query.layers := by
  unfold verifyQuery at h
  simp only [Bool.and_eq_true, decide_eq_true_eq] at h
  obtain ⟨⟨⟨⟨hlen, -⟩, -⟩, hfirst⟩, hpath⟩ := h
  refine ⟨hlen, fun lp hlp => ?_, fun i lp hlp => ?_⟩
  · rw [List.head?_eq_getElem?, hlp] at hfirst
    simpa using hfirst
  · have := verifyPath_folds hpath hlp
    rwa [Nat.zero_add] at this

/-! ## The shape of an accepted commitment -/

/-- What `FRIVerify` leaves behind. -/
structure Accepted (sha256 : Bytes → Digest) (c : FRICommitment) (proof : FRIProof)
    (queryIndices : List Int) : Prop where
  queries : proof.queries.length = queryIndices.length
  nonempty : queryIndices ≠ []
  numLayers : 0 < c.numLayers
  domainSize : ∃ k : Nat, k ≤ 31 ∧ c.domainSize = 2 ^ k
  finalValues : 0 < c.finalValues.length
  paths : ∀ e ∈ queryIndices.zip proof.queries, PathFolds sha256 c e.1 e.2.layers
  degree : friVerifyFinalLowDegree c.finalValues c.numLayers.toNat c.domainSize = true

theorem friVerify_eq_true_iff {proof : FRIProof} {queryIndices : List Int} {cfg : FRIConfig} :
    friVerify sha256 c proof queryIndices cfg = true ↔
      proof.queries.length = queryIndices.length ∧
      (0 < cfg.numQueries ∧ cfg.numQueries ≤ queryIndices.length) ∧
      (0 < c.numLayers ∧ c.numLayers + 1 ≤ c.layerRoots.length) ∧
      (powerOfTwo c.domainSize = true ∧ c.domainSize ≤ maxFRIDADomainSize) ∧
      c.finalValues.length ≠ 0 ∧
      (∀ e ∈ queryIndices.zip proof.queries, verifyQuery sha256 c e.1 e.2 = true) ∧
      friVerifyFinalLowDegree c.finalValues c.numLayers.toNat c.domainSize = true := by
  unfold friVerify
  simp only [Bool.if_false_left, Bool.and_eq_true, decide_eq_false_iff_not, List.all_eq_true, not_le,
    not_lt, not_not, Bool.not_eq_eq_eq_not, Bool.not_true, Bool.not_eq_false,
    and_assoc]

theorem friVerifyOpeningProof_eq_true_iff {proof : FRIOpeningProof} {cfg : FRIConfig} :
    friVerifyOpeningProof sha256 c proof cfg = true ↔
      ∃ friProof root0 rest expectedIndices e, proof.friProof = some friProof ∧
        (0 ≤ proof.cellIndex ∧ proof.cellIndex < c.domainSize) ∧ proof.queryIndices.length ≠ 0 ∧
        (0 < cfg.numQueries ∧ cfg.numQueries ≤ proof.queryIndices.length) ∧
        c.layerRoots = root0 :: rest ∧ 0 < c.domainSize ∧
        friGenerateQueryIndices sha256 c cfg.numQueries = some expectedIndices ∧
        verifyQueryIndicesMatch proof.queryIndices expectedIndices proof.cellIndex = true ∧
        friVerifyMerkleProof sha256 root0 proof.cellValue proof.cellIndex c.domainSize
          proof.merkleProof = true ∧
        friVerify sha256 c friProof proof.queryIndices cfg = true ∧
        ((proof.queryIndices.zip friProof.queries).find? fun e => e.1 = proof.cellIndex) = some e ∧
        ((e.2.layers.head?).any fun lp => lp.value = proof.cellValue) = true := by
  unfold friVerifyOpeningProof
  cases proof.friProof with
  | none => simp
  | some friProof =>
    cases c.layerRoots with
    | nil => simp
    | cons root0 rest =>
      cases friGenerateQueryIndices sha256 c cfg.numQueries with
      | none => simp
      | some expectedIndices =>
        simp only [Bool.if_false_left, Bool.and_eq_true, decide_eq_false_iff_not, not_le, not_lt,
          not_or, Bool.not_eq_eq_eq_not, Bool.not_true, Bool.not_eq_false, Option.some.injEq,
          List.cons.injEq]
        constructor
        · rintro ⟨h1, h2, h3, h4, h5, h6, h7, h8, h9⟩
          split at h9
          · cases h9
          next e he =>
            exact ⟨friProof, root0, rest, expectedIndices, e, rfl, h1, h2, ⟨h3, h4⟩, ⟨rfl, rfl⟩, h5,
              rfl, h6, h7, h8, he, h9⟩
        · rintro ⟨_, _, _, _, e, rfl, h1, h2, ⟨h3, h4⟩, ⟨rfl, rfl⟩, h5, rfl, h6, h7, h8, he, h9⟩
          refine ⟨h1, h2, h3, h4, h5, h6, h7, h8, ?_⟩
          rw [he]
          exact h9

theorem fridaVerifyCell_eq_true_iff {cell : Cell} {commitment : FRIDACommitment}
    {proof : FRIOpeningProof} {cellIndex : Int} :
    fridaVerifyCell sha256 cell commitment proof cellIndex = true ↔
      (0 ≤ cellIndex ∧ cellIndex < commitment.domainSize) ∧
      (powerOfTwo commitment.domainSize = true ∧ commitment.domainSize ≤ maxFRIDADomainSize) ∧
      0 < commitment.numLayers ∧ commitment.layerRoots.length ≠ 0 ∧
      commitment.finalValues.length ≠ 0 ∧ 0 < commitment.codeRate ∧ 2 ≤ commitment.finalLayerSize ∧
      (0 < commitment.numQueries ∧ commitment.numQueries ≤ maxFRIDANumQueries) ∧
      proof.cellIndex = cellIndex ∧ gf64FromBytes (cell.toList.take 8) = proof.cellValue ∧
      friVerifyOpeningProof sha256 commitment.toFRICommitment proof commitment.toFRIConfig = true := by
  unfold fridaVerifyCell
  simp only [Bool.if_false_left, Bool.and_eq_true, decide_eq_false_iff_not, not_le, not_lt, not_or,
    ge_iff_le, gt_iff_lt, Bool.not_eq_eq_eq_not, Bool.not_true, Bool.not_eq_false, ne_eq, not_not]
  constructor
  · rintro ⟨h1, h2, h3, h4, h5, h6, h7, -, h8, h9, h10, h11⟩
    exact ⟨h1, ⟨h2, h3⟩, h4, h5, h6, h7, h10, ⟨h8, h9⟩, h11⟩
  · rintro ⟨h1, ⟨h2, h3⟩, h4, h5, h6, h7, h10, ⟨h8, h9⟩, h11⟩
    exact ⟨h1, h2, h3, h4, h5, h6, h7, by omega, h8, h9, h10, h11⟩

theorem accepted_of_friVerify {proof : FRIProof} {queryIndices : List Int} {cfg : FRIConfig}
    (h : friVerify sha256 c proof queryIndices cfg = true) :
    Accepted sha256 c proof queryIndices := by
  obtain ⟨hlen, ⟨hnum, hidx⟩, ⟨hlayers, -⟩, ⟨hpow, hmax⟩, hfinal, hqueries, hdeg⟩ :=
    friVerify_eq_true_iff.mp h
  obtain ⟨k, hk⟩ := powerOfTwo_iff.mp hpow
  refine ⟨hlen, ?_, hlayers, ⟨k, ?_, hk⟩, Nat.pos_of_ne_zero hfinal,
    fun e he => pathFolds_of_verifyQuery (hqueries e he), hdeg⟩
  · rintro rfl
    rw [List.length_nil] at hidx
    omega
  · rw [hk] at hmax
    exact (pow_le_pow_iff_right₀ (by decide : (1 : Int) < 2)).mp hmax

theorem layerSize_two_pow {k : Nat} (hc : c.domainSize = 2 ^ k) (hi : i ≤ k) :
    c.layerSize i = ((2 ^ (k - i) : Nat) : Int) := by
  have h : (2 : Int) ^ k = 2 ^ (k - i) * 2 ^ i := by
    rw [← pow_add, Nat.sub_add_cancel hi]
  rw [FRICommitment.layerSize, hc, h, Int.mul_ediv_cancel _ (by positivity)]
  push_cast
  rfl

theorem layerSize_lt_two {k : Nat} (hc : c.domainSize = 2 ^ k) (hi : k ≤ i) :
    c.layerSize i < 2 := by
  have h : (2 : Int) ^ k ≤ 2 ^ i := pow_le_pow_right₀ (by decide) hi
  have hpos : (0 : Int) < 2 ^ i := by positivity
  rw [FRICommitment.layerSize, hc]
  exact Int.ediv_lt_of_lt_mul hpos (by omega)

namespace Accepted

variable {proof : FRIProof} {queryIndices : List Int} {k : Nat}

/-- Each layer halves the domain: there are not more of them than its size
allows. -/
theorem numLayers_le (ha : Accepted sha256 c proof queryIndices) (hc : c.domainSize = 2 ^ k) :
    c.numLayers.toNat ≤ k := by
  obtain ⟨qIdx, rest, hq⟩ := List.exists_cons_of_ne_nil ha.nonempty
  have hqueries := ha.queries
  rw [hq] at hqueries
  obtain ⟨query, rest', hp⟩ := List.exists_cons_of_length_eq_add_one hqueries
  have hpath := ha.paths (qIdx, query) (by rw [hq, hp]; exact List.mem_cons_self)
  have hlen : (query.layers.length : Int) = c.numLayers := hpath.length
  have hpos := ha.numLayers
  have hlt : c.numLayers.toNat - 1 < query.layers.length := by omega
  obtain ⟨next, hopen, -⟩ := hpath.folds _ _ (List.getElem?_eq_getElem hlt)
  by_contra hk
  have := layerSize_lt_two hc (i := c.numLayers.toNat - 1) (by omega)
  have := hopen.size
  omega

/-- The final values lie on the domain of the last layer; four or more of
them are those of a polynomial of a quarter of the degree. -/
theorem final (ha : Accepted sha256 c proof queryIndices) (hk : k ≤ 31) (hc : c.domainSize = 2 ^ k)
    : ∃ domain, friGenerateLayerDomain c.numLayers.toNat c.domainSize = some domain ∧
      Points domain (2 ^ (k - c.numLayers.toNat)) ∧
      c.finalValues.length ≤ 2 ^ (k - c.numLayers.toNat) ∧
      (4 ≤ c.finalValues.length →
        extrapolates c.finalValues domain (c.finalValues.length / 4) = true) := by
  have hL := ha.numLayers_le hc
  obtain ⟨domain, hdom, hlen, hpts⟩ := layerDomain_spec (hk.trans (by decide)) hL
  have hinj := layerDomain_injOn (hk.trans (by decide)) hL hdom
  have hdeg := ha.degree
  have hpos : 0 < 2 ^ (k - c.numLayers.toNat) := by positivity
  rw [hc] at hdeg ⊢
  refine ⟨domain, hdom, ⟨fun j hj => (hpts j hj).1, hinj⟩, ?_⟩
  unfold friVerifyFinalLowDegree at hdeg
  dsimp only at hdeg
  split at hdeg
  next hn => exact ⟨by omega, fun h4 => by omega⟩
  next hn =>
    rw [hdom] at hdeg
    dsimp only at hdeg
    split at hdeg
    · cases hdeg
    next hle =>
      rw [hlen, not_lt] at hle
      split at hdeg
      next h4 => exact ⟨hle, fun h4' => by omega⟩
      next h4 => exact ⟨hle, fun _ => hdeg⟩

end Accepted

/-- The layer structure that a configuration asks for. The degree bound of a
rate that is not positive is 0. -/
structure LayerStructure (c : FRICommitment) (cfg : FRIConfig) : Prop where
  domainSize : c.domainSize = cfg.domainSize
  numLayers : c.numLayers.toNat =
    gf64Log2 cfg.domainSize.toNat - gf64Log2 cfg.finalLayerSize.toNat
  length : c.finalValues.length = c.layerSize c.numLayers.toNat
  single : 1 < c.finalValues.length
  lowDegree : ∃ domain, friGenerateLayerDomain c.numLayers.toNat c.domainSize = some domain ∧
    ∃ P : F[X], P.degree < (c.finalValues.length / cfg.codeRate.toNat : Nat) ∧
      ∀ m, m < c.finalValues.length → P.eval (pointOf domain m) = pointOf c.finalValues m

/-- What `FRIVerify` does not check. The final values have the configured
size and are as many as the foldings of the domain leave, and the test by a
quarter of them is enough for the rate, or the one by the rate passes. -/
structure Configured (c : FRICommitment) (cfg : FRIConfig) : Prop where
  domainSize : c.domainSize = cfg.domainSize
  finalLayerSize : 2 ≤ cfg.finalLayerSize
  length : c.finalValues.length = 2 ^ gf64Log2 cfg.finalLayerSize.toNat
  covers : c.domainSize ≤ 2 ^ c.numLayers.toNat * c.finalValues.length
  rate : 0 < cfg.codeRate ∧ cfg.codeRate ≤ 4 ∧ 4 ≤ c.finalValues.length ∨
    ∃ domain, friGenerateLayerDomain c.numLayers.toNat c.domainSize = some domain ∧
      extrapolates (c.finalValues.map ctReduceOnce) domain
        (c.finalValues.length / cfg.codeRate.toNat) = true

theorem pointOf_map_reduce (values : List GF64Element) (m : Nat) :
    pointOf (values.map ctReduceOnce) m = pointOf values m := by
  unfold pointOf
  rw [List.getD_eq_getElem?_getD, List.getElem?_map, List.getD_eq_getElem?_getD]
  cases values[m]? with
  | none => rfl
  | some v =>
    dsimp only [Option.map_some, Option.getD_some]
    unfold toField
    rw [toNat_ctReduceOnce, ZMod.natCast_mod]

theorem extrapolates_reduced_iff {values domain : List GF64Element} {r : Nat}
    (hp : Points domain values.length) :
    extrapolates (values.map ctReduceOnce) domain (values.length / r) = true ↔
      ∃ P : F[X], P.degree < (values.length / r : Nat) ∧ ∀ m, m < values.length →
        P.eval (pointOf domain m) = pointOf values m := by
  have hlen : (values.map ctReduceOnce).length = values.length := List.length_map _
  rw [extrapolates_iff (by rwa [hlen]) (by rw [hlen]; exact Nat.div_le_self _ _), hlen]
  simp only [pointOf_map_reduce]
  refine and_iff_right fun m _ hm => ?_
  rw [List.getD_eq_getElem?_getD, List.getElem?_map, List.getElem?_eq_getElem hm]
  show (ctReduceOnce values[m]).toNat < prime
  rw [toNat_ctReduceOnce]
  exact Nat.mod_lt _ prime_pos

variable {proof : FRIProof} {queryIndices : List Int} {cfg : FRIConfig} {k : Nat}

/-- With all values of the layer there, the degree bound is what the test
by the rate, or the one by a quarter, gives. -/
theorem lowDegree_iff (ha : Accepted sha256 c proof queryIndices) (hk : k ≤ 31)
    (hc : c.domainSize = 2 ^ k) (hlen : c.finalValues.length = 2 ^ (k - c.numLayers.toNat)) :
    (∃ domain, friGenerateLayerDomain c.numLayers.toNat c.domainSize = some domain ∧
      ∃ P : F[X], P.degree < (c.finalValues.length / cfg.codeRate.toNat : Nat) ∧
        ∀ m, m < c.finalValues.length → P.eval (pointOf domain m) = pointOf c.finalValues m) ↔
    (0 < cfg.codeRate ∧ cfg.codeRate ≤ 4 ∧ 4 ≤ c.finalValues.length ∨
      ∃ domain, friGenerateLayerDomain c.numLayers.toNat c.domainSize = some domain ∧
        extrapolates (c.finalValues.map ctReduceOnce) domain
          (c.finalValues.length / cfg.codeRate.toNat) = true) := by
  obtain ⟨domain, hdom, hpts, -, hquarter⟩ := ha.final hk hc
  rw [← hlen] at hpts
  constructor
  · rintro ⟨domain', hdom', h⟩
    obtain rfl : domain = domain' := Option.some.inj (hdom.symm.trans hdom')
    exact .inr ⟨domain, hdom, (extrapolates_reduced_iff hpts).mpr h⟩
  · rintro (⟨hpos, hle, h4⟩ | ⟨domain', hdom', h⟩)
    · obtain ⟨-, P, hdeg, heval⟩ :=
        (extrapolates_iff hpts (Nat.div_le_self _ _)).mp (hquarter h4)
      refine ⟨domain, hdom, P, hdeg.trans_le ?_, heval⟩
      exact_mod_cast Nat.div_le_div_left (by omega) (by omega)
    · obtain rfl : domain = domain' := Option.some.inj (hdom.symm.trans hdom')
      exact ⟨domain, hdom, (extrapolates_reduced_iff hpts).mp h⟩

theorem gf64Log2_ne_zero_iff (n : Nat) : gf64Log2 n ≠ 0 ↔ 2 ≤ n := by
  rcases Nat.eq_zero_or_pos n with rfl | hn
  · decide
  · rw [gf64Log2, Nat.ne_zero_iff_zero_lt, Nat.lt_iff_add_one_le, Nat.le_log2 hn.ne']

/-- The final values are those of the layer, and the layer the configured
one, if they are as many as the configuration says and cover the domain. -/
theorem shape_iff (ha : Accepted sha256 c proof queryIndices) (hk : k ≤ 31)
    (hc : c.domainSize = 2 ^ k) (hcfg : c.domainSize = cfg.domainSize) :
    (c.numLayers.toNat = gf64Log2 cfg.domainSize.toNat - gf64Log2 cfg.finalLayerSize.toNat ∧
      c.finalValues.length = c.layerSize c.numLayers.toNat ∧ 1 < c.finalValues.length) ↔
    (2 ≤ cfg.finalLayerSize ∧ c.finalValues.length = 2 ^ gf64Log2 cfg.finalLayerSize.toNat ∧
      c.domainSize ≤ 2 ^ c.numLayers.toNat * c.finalValues.length) := by
  have hL := ha.numLayers_le hc
  have hpos : 0 < c.numLayers.toNat := Int.pos_iff_toNat_pos.mp ha.numLayers
  obtain ⟨-, -, -, hle, -⟩ := ha.final hk hc
  rw [layerSize_two_pow hc hL, ← hcfg, hc, toNat_two_pow, gf64Log2_two_pow, Nat.cast_inj]
  generalize hf : gf64Log2 cfg.finalLayerSize.toNat = f
  have hf' : 2 ≤ cfg.finalLayerSize ↔ f ≠ 0 := by
    rw [← hf, gf64Log2_ne_zero_iff]
    omega
  generalize c.numLayers.toNat = l at *
  have hsplit : (2 : Int) ^ k = 2 ^ l * ((2 ^ (k - l) : Nat) : Int) := by
    push_cast
    rw [← pow_add, Nat.add_sub_cancel' hL]
  rw [hf', hsplit, mul_le_mul_iff_of_pos_left (by positivity), Nat.cast_le]
  constructor
  · rintro ⟨hl, hlen, h1⟩
    have hfl : k - l = f := by omega
    rw [hfl] at hlen ⊢
    refine ⟨?_, hlen, hlen.ge⟩
    rintro rfl
    omega
  · rintro ⟨hf0, hlen, hcov⟩
    have hlen' := Nat.le_antisymm hle hcov
    have hfl : k - l = f := Nat.pow_right_injective (le_refl 2) (hlen'.symm.trans hlen)
    refine ⟨by omega, hlen', ?_⟩
    rw [hlen]
    exact Nat.one_lt_two_pow hf0

/-- Along every path that `FRIVerify` accepts the pairs fold down to the
final values; the commitment has the structure of its configuration exactly
when it meets what is not checked. -/
theorem friVerify_structure_iff (sha256 : Bytes → Digest) (c : FRICommitment) (proof : FRIProof)
    (queryIndices : List Int) (cfg : FRIConfig)
    (h : friVerify sha256 c proof queryIndices cfg = true) :
    (proof.queries.length = queryIndices.length ∧
      ∀ e ∈ queryIndices.zip proof.queries, PathFolds sha256 c e.1 e.2.layers) ∧
    (LayerStructure c cfg ↔ Configured c cfg) := by
  have ha := accepted_of_friVerify h
  obtain ⟨k, hk, hc⟩ := ha.domainSize
  refine ⟨⟨ha.queries, ha.paths⟩, ?_⟩
  constructor
  · rintro ⟨hD, hL, hlen, h1, hdeg⟩
    obtain ⟨hF, hlen', hcov⟩ := (shape_iff ha hk hc hD).mp ⟨hL, hlen, h1⟩
    rw [layerSize_two_pow hc (ha.numLayers_le hc), Nat.cast_inj] at hlen
    exact ⟨hD, hF, hlen', hcov, (lowDegree_iff ha hk hc hlen).mp hdeg⟩
  · rintro ⟨hD, hF, hlen', hcov, hrate⟩
    obtain ⟨hL, hlen, h1⟩ := (shape_iff ha hk hc hD).mpr ⟨hF, hlen', hcov⟩
    refine ⟨hD, hL, hlen, h1, (lowDegree_iff ha hk hc ?_).mpr hrate⟩
    rwa [layerSize_two_pow hc (ha.numLayers_le hc), Nat.cast_inj] at hlen

/-- A hash that tells the messages of small constant codewords apart: the
length of the message and the sum of its bytes. -/
def constantSha256 (m : Bytes) : Digest := copyInto 32 [UInt8.ofNat m.length, m.sum]

/-- The constant polynomial 1 on four points, folded to two and opened at
index 2. -/
theorem friVerify_structure_ones : let leaf := friLeafHash constantSha256 1
    let two := merkleInternalHash constantSha256 leaf leaf
    let four := merkleInternalHash constantSha256 two two
    let path := [leaf.toList, two.toList]
    LayerStructure ⟨[four, two], [1, 1], 1, 4⟩ ⟨4, 2, 1, 2⟩ ∧
      PathFolds constantSha256 ⟨[four, two], [1, 1], 1, 4⟩ 2 [⟨1, 1, 2, path, path⟩] := by
  intro leaf two four path
  obtain ⟨⟨-, hpaths⟩, hiff⟩ := friVerify_structure_iff constantSha256 ⟨[four, two], [1, 1], 1, 4⟩
    ⟨[⟨[⟨1, 1, 2, path, path⟩]⟩]⟩ [2] ⟨4, 2, 1, 2⟩ (by decide +kernel)
  refine ⟨hiff.mpr ⟨rfl, by decide, rfl, by decide, .inr
    ⟨[1, goldilocksP - 1], by decide +kernel, by decide +kernel⟩⟩, hpaths _ List.mem_cons_self⟩

/-- Two values, folded to one. -/
def foldedPair (sha256 : Bytes → Digest) (v0 v1 : GF64Element) : FRICommitment :=
  let root := merkleInternalHash sha256 (friLeafHash sha256 v0) (friLeafHash sha256 v1)
  { layerRoots := [root, zeroArr 32]
    finalValues := [(friFoldOne v0 v1 1 (challengeOf sha256 [root])).getD 0]
    numLayers := 1
    domainSize := 2 }

def pairOpening (sha256 : Bytes → Digest) (v0 v1 : GF64Element) : FriLayerProof :=
  { value := v0
    siblingValue := v1
    index := 0
    merkleProof := [(friLeafHash sha256 v1).toList]
    siblingMerkleProof := [(friLeafHash sha256 v0).toList] }

theorem verifyQuery_foldedPair (sha256 : Bytes → Digest) (v0 v1 : GF64Element) :
    verifyQuery sha256 (foldedPair sha256 v0 v1) 0 ⟨[pairOpening sha256 v0 v1]⟩ = true := by
  have hdom : friGenerateLayerDomain 0 2 = some [1, goldilocksP - 1] := by decide +kernel
  have hinv : gf64Inverse 1 = some 1 := by decide +kernel
  simp [verifyQuery, verifyPath, foldedPair, pairOpening, friVerifyMerkleProof, verifyMerkleProof,
    proofRoot, proofLoop, maxMerkleProofLen, copyInto_toList, siblingIdx, hdom, friFoldOne, hinv]

/-- A production configuration with 64 points and 4 final values accepts any
two values that are folded to one, whatever the hash function is. -/
theorem friVerify_structure_single : validateFRIConfigForProduction ⟨64, 4, 40, 4⟩ = .ok () ∧
      ∀ (sha256 : Bytes → Digest) (v0 v1 : GF64Element),
        let cfg : FRIConfig := ⟨64, 4, 40, 4⟩
        let c := foldedPair sha256 v0 v1
        let proof : FRIProof := ⟨List.replicate 40 ⟨[pairOpening sha256 v0 v1]⟩⟩
        friVerify sha256 c proof (List.replicate 40 0) cfg = true ∧
          c.finalValues.length = 1 ∧ ¬ LayerStructure c cfg := by
  refine ⟨by decide, ?_⟩
  intro sha256 v0 v1 cfg c proof
  have hqueries : ∀ e ∈ (List.replicate 40 (0 : Int)).zip proof.queries,
      verifyQuery sha256 c e.1 e.2 = true := by
    intro e he
    obtain ⟨h1, h2⟩ := List.of_mem_zip he
    rw [List.eq_of_mem_replicate h1, List.eq_of_mem_replicate h2]
    exact verifyQuery_foldedPair sha256 v0 v1
  refine ⟨friVerify_eq_true_iff.mpr ?_, rfl, fun h => absurd h.single (Nat.lt_irrefl 1)⟩
  refine ⟨rfl, by decide, ⟨Int.one_pos, le_refl 2⟩, ⟨powerOfTwo_iff.mpr ⟨1, rfl⟩, ?_⟩,
    Nat.one_ne_zero, hqueries, rfl⟩
  show (2 : Int) ≤ 2 ^ 31
  decide

end Qau.Fri
