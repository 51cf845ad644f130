import Qau.FriCodeword
import Qau.FriStructure
import Qau.MerkleArray

/-!
# The verifier on the prover's output

For a commitment that `FRICommit` has made, every check of the verifier on
the prover's openings passes: the paths (`proveQuery_spec`), the query
indices and the cell's value. What remains is the degree test of the final
layer, so a cell is accepted exactly when the final layer passes it
(`fridaVerifyCell_iff`). The source's two sides share `friFoldOne`, the layer
domains and the tree layout; the lemmas follow the prover's recursion.
-/

namespace Qau.Fri

open Polynomial

variable {sha256 : Bytes → Digest} {k : Nat} {Q : Nat → F[X] → Prop} {cfg : FRIConfig}
  {codeword : List GF64Element} {c : FRICommitment} {layers : List FriLayer}
  {layer : FriLayer} {queryIndices : List Int} {values : List GF64Element} {idx : Int}

/-! ## Paths -/

variable (sha256) in
theorem friVerifyMerkleProof_generate {m : Nat} (hm : m ≤ 32) (hlen : values.length = 2 ^ m)
    (h0 : 0 ≤ idx) (hlt : idx < (2 ^ m : Nat)) :
    friVerifyMerkleProof sha256 (friBuildMerkleTree sha256 values 0) (values.getD idx.toNat 0) idx
      (2 ^ m : Nat) (generateMerkleProof (friBuildMerkleTree sha256 values) idx.toNat values.length) =
        true := by
  have hidx : idx.toNat < values.length := by omega
  have hlen' : (values.map (friLeafHash sha256)).length = values.length := List.length_map _
  have hclog : Nat.clog 2 (values.map (friLeafHash sha256)).length ≤ maxMerkleProofLen := by
    rw [hlen', hlen, Nat.clog_pow 2 m (by decide)]
    exact hm.trans (by decide)
  have h := verifyMerkleProof_generateMerkleProof sha256 (values.map (friLeafHash sha256))
    (by rwa [hlen']) hclog
  have hleaf : (values.map (friLeafHash sha256)).getD idx.toNat (zeroArr 32) =
      friLeafHash sha256 (values.getD idx.toNat 0) := by
    rw [List.getD_eq_getElem _ _ (by rwa [hlen']), List.getElem_map, List.getD_eq_getElem _ _ hidx]
  rw [hleaf, hlen', Int.toNat_of_nonneg h0] at h
  rw [← hlen]
  exact h

/-- A pair in the order of the layer is at the folded index and half a layer
above it. -/
theorem pair_eq {halfN : Int} {proof proof' : List Bytes} (h0 : 0 ≤ idx) (hlt : idx < halfN + halfN)
    : (FriLayerProof.mk (values.getD idx.toNat 0) (values.getD (siblingIdx idx halfN).toNat 0) idx proof
        proof').pair halfN =
      (values.getD (idx % halfN).toNat 0, values.getD ((idx % halfN).toNat + halfN.toNat) 0) := by
  unfold FriLayerProof.pair siblingIdx
  dsimp only
  by_cases h : idx < halfN
  · rw [if_pos h, if_pos h, Int.emod_eq_of_lt h0 h, Int.toNat_add h0 (by omega)]
  · have hmod : idx % halfN = idx - halfN := by
      rw [← Int.sub_emod_right, Int.emod_eq_of_lt (by omega) (by omega)]
    rw [if_neg h, if_neg h, hmod, ← Int.toNat_add (by omega) (by omega), Int.sub_add_cancel]

/-- What `FRIProve` opens of a layer. -/
def layerOpening (layer : FriLayer) (idx : Int) : FriLayerProof :=
  let n := layer.values.length
  let sibling := siblingIdx idx (n / 2 : Nat)
  { value := layer.values.getD idx.toNat 0
    siblingValue := layer.values.getD sibling.toNat 0
    index := idx
    merkleProof := generateMerkleProof layer.merkleTree idx.toNat n
    siblingMerkleProof := generateMerkleProof layer.merkleTree sibling.toNat n }

theorem proveQuery_cons {rest : List FriLayer} (hhalf : 1 ≤ layer.values.length / 2) (h0 : 0 ≤ idx)
    (hlt : idx < layer.values.length) :
    proveQuery (layer :: rest) idx = (proveQuery rest (idx % (layer.values.length / 2 : Nat))).map
      (layerOpening layer idx :: ·) := by
  rw [proveQuery]
  dsimp only
  rw [if_neg (by omega), if_neg (by omega)]
  rfl

theorem two_pow_half {i k : Nat} (hi : i < k) :
    2 ^ (k - i) = 2 ^ (k - (i + 1)) + 2 ^ (k - (i + 1)) := by
  rw [← two_mul, ← pow_succ']
  congr 1
  omega

/-- The opening of a layer verifies, and folds to the next layer's value. -/
theorem opens_layerOpening (hk : k ≤ 31) (h : Committed sha256 k Q cfg codeword c layers) {i : Nat}
    (hi : i < k) {next : FriLayer} (hlayer : layers[i]? = some layer)
    (hnext : layers[i + 1]? = some next) (h0 : 0 ≤ idx) (hlt : idx < (2 ^ (k - i) : Nat)) :
    Opens sha256 c i (layerOpening layer idx)
      (next.values.getD (idx % (2 ^ (k - (i + 1)) : Nat)).toNat 0) ∧
      c.foldedIndex i idx = idx % (2 ^ (k - (i + 1)) : Nat) := by
  obtain ⟨P, -, hvalues⟩ := h.layered.values i layer hlayer
  obtain ⟨domain, hdom, hfold⟩ := h.layered.folds i layer next hlayer hnext
  obtain ⟨domain', hdom', hdlen, -⟩ := layerDomain_spec (hk.trans (by decide)) hi.le
  obtain rfl : domain' = domain := Option.some.inj (hdom'.symm.trans hdom)
  have htree := h.layered.tree layer (List.mem_of_getElem? hlayer)
  have hpow := two_pow_half hi
  have hpos : 0 < 2 ^ (k - (i + 1)) := by positivity
  have hhalf : layer.values.length / 2 = 2 ^ (k - (i + 1)) := by
    rw [hvalues.length]
    omega
  have hsize : c.layerSize i = (2 ^ (k - i) : Nat) := layerSize_two_pow h.domainSize hi.le
  have hsize2 : c.layerSize i / 2 = (2 ^ (k - (i + 1)) : Nat) := by
    rw [hsize]
    omega
  have hfolded : c.foldedIndex i idx = idx % (2 ^ (k - (i + 1)) : Nat) := by
    rw [FRICommitment.foldedIndex, hsize2]
  have hj0 : 0 ≤ idx % (2 ^ (k - (i + 1)) : Nat) := Int.emod_nonneg _ (by omega)
  have hjlt : idx % (2 ^ (k - (i + 1)) : Nat) < (2 ^ (k - (i + 1)) : Nat) :=
    Int.emod_lt_of_pos _ (by omega)
  have hs : 0 ≤ siblingIdx idx (2 ^ (k - (i + 1)) : Nat) ∧
      siblingIdx idx (2 ^ (k - (i + 1)) : Nat) < (2 ^ (k - i) : Nat) := by
    unfold siblingIdx
    split_ifs <;> omega
  unfold layerOpening
  dsimp only
  rw [hhalf]
  refine ⟨⟨?_, ?_, ⟨layer.merkleTree 0, ?_, ?_, ?_⟩, domain', ?_, ?_, ?_⟩, hfolded⟩
  · rw [hsize]
    omega
  · rw [hsize]
    exact ⟨h0, hlt⟩
  · rw [h.roots, layerRoots, List.getElem?_map, hlayer]
    rfl
  · rw [hsize, htree]
    exact friVerifyMerkleProof_generate sha256 (by omega) hvalues.length h0 hlt
  · rw [hsize2, hsize, htree]
    exact friVerifyMerkleProof_generate sha256 (by omega) hvalues.length hs.1 hs.2
  · rw [h.domainSize]
    exact hdom
  · rw [hfolded]
    omega
  · rw [hfolded, hsize2, pair_eq h0 (by omega), h.roots]
    exact hfold _ (by omega)

theorem proveQuery_spec (hk : k ≤ 31) (h : Committed sha256 k Q cfg codeword c layers) {n i : Nat}
    (hi : i + n = k - gf64Log2 cfg.finalLayerSize.toNat) (hlayer : layers[i]? = some layer)
    (h0 : 0 ≤ idx) (hlt : idx < (2 ^ (k - i) : Nat)) :
    ∃ lps, proveQuery (layers.dropLast.drop i) idx = some lps ∧ lps.length = n ∧
      GoesOn c idx (layer.values.getD idx.toNat 0) lps[0]? ∧ verifyPath sha256 c i lps = true := by
  have hlen := h.length
  obtain ⟨P, -, hvalues⟩ := h.layered.values i layer hlayer
  induction n generalizing i layer idx P with
  | zero =>
    obtain ⟨last, hlast, hfinal⟩ := h.last
    obtain rfl : i = k - gf64Log2 cfg.finalLayerSize.toNat := hi
    obtain rfl : layer = last := Option.some.inj (hlayer.symm.trans hlast)
    refine ⟨[], ?_, rfl, ⟨?_, ?_⟩, rfl⟩
    · rw [List.drop_of_length_le (by rw [List.length_dropLast]; omega)]
      rfl
    · rw [← hfinal, hvalues.length]
      exact hlt
    · rw [← hfinal]
  | succ n ih =>
    obtain ⟨next, hnext⟩ : ∃ next, layers[i + 1]? = some next :=
      ⟨_, List.getElem?_eq_getElem (by omega)⟩
    obtain ⟨P', -, hvalues'⟩ := h.layered.values (i + 1) next hnext
    have hpow := two_pow_half (show i < k by omega)
    have hhalf : layer.values.length / 2 = 2 ^ (k - (i + 1)) := by
      rw [hvalues.length]
      omega
    obtain ⟨lps, hprove, hlps, hgoes, hverify⟩ := ih (i := i + 1) (by omega) hnext
      (Int.emod_nonneg idx (by omega)) (Int.emod_lt_of_pos idx (by omega)) P' hvalues'
    obtain ⟨hopens, hfolded⟩ := opens_layerOpening hk h (by omega) hlayer hnext h0 hlt
    have hdrop : layers.dropLast.drop i = layer :: layers.dropLast.drop (i + 1) := by
      have hi' : i < layers.dropLast.length := by
        rw [List.length_dropLast]
        omega
      rw [List.drop_eq_getElem_cons hi', List.getElem_dropLast]
      congr 1
      exact Option.some.inj ((List.getElem?_eq_getElem (by omega)).symm.trans hlayer)
    refine ⟨layerOpening layer idx :: lps, ?_, ?_, ⟨rfl, rfl⟩, verifyPath_cons.mpr ⟨⟨_, hopens, ?_⟩, hverify⟩⟩
    · rw [hdrop, proveQuery_cons (by omega) h0 (by rw [hvalues.length]; exact hlt), hhalf, hprove]
      rfl
    · rw [List.length_cons, hlps]
    · change GoesOn c (c.foldedIndex i idx) _ _
      rw [hfolded]
      exact hgoes

/-! ## Queries -/

/-- A query of the prover passes; its first layer shows the codeword's value. -/
theorem verifyQuery_proveQuery (hk : k ≤ 31) (h : Committed sha256 k Q cfg codeword c layers)
    (h0 : 0 ≤ idx) (hlt : idx < (2 ^ k : Nat)) :
    ∃ lps, proveQuery layers.dropLast idx = some lps ∧ verifyQuery sha256 c idx ⟨lps⟩ = true ∧
      lps.length = c.numLayers ∧ ∀ lp, lps.head? = some lp → lp.value = codeword.getD idx.toNat 0 := by
  obtain ⟨layer, hlayer, hcode⟩ := h.first
  obtain ⟨lps, hprove, hlen, hgoes, hverify⟩ :=
    proveQuery_spec hk h (Nat.zero_add _) hlayer h0 hlt
  rw [hcode] at hgoes
  have hhead : ∀ lp, lps.head? = some lp → lp.index = idx ∧ lp.value = codeword.getD idx.toNat 0 := by
    intro lp hlp
    rw [← List.head?_eq_getElem?, hlp] at hgoes
    exact hgoes
  have hnum : (lps.length : Int) = c.numLayers := by rw [hlen, h.numLayers]
  refine ⟨lps, hprove, ?_, hnum, fun lp hlp => (hhead lp hlp).2⟩
  have hall : (lps.head?.all fun lp => decide (lp.index = idx)) = true := by
    cases hlp : lps.head? with
    | none => rfl
    | some lp => exact decide_eq_true (hhead lp hlp).1
  have hD : idx < c.domainSize := by
    rw [h.domainSize]
    exact_mod_cast hlt
  unfold verifyQuery
  simp only [Bool.and_eq_true, decide_eq_true_eq]
  exact ⟨⟨⟨⟨hnum, h0⟩, hD⟩, hall⟩, hverify⟩

theorem friProve_spec (hk : k ≤ 31) (h : Committed sha256 k Q cfg codeword c layers)
    (hidx : ∀ q ∈ queryIndices, 0 ≤ q ∧ q < (2 ^ k : Nat)) :
    ∃ g : Int → FRIQueryProof, friProve layers queryIndices = some ⟨queryIndices.map g⟩ ∧
      ∀ q ∈ queryIndices, verifyQuery sha256 c q (g q) = true ∧
        (g q).layers.length = c.numLayers ∧
        ∀ lp, (g q).layers.head? = some lp → lp.value = codeword.getD q.toNat 0 := by
  have hquery : ∀ q, q ∈ queryIndices → ∃ lps, proveQuery layers.dropLast q = some lps ∧
      verifyQuery sha256 c q ⟨lps⟩ = true ∧ lps.length = c.numLayers ∧
      ∀ lp, lps.head? = some lp → lp.value = codeword.getD q.toNat 0 := fun q hq =>
    verifyQuery_proveQuery hk h (hidx q hq).1 (hidx q hq).2
  choose! lps hprove hrest using hquery
  refine ⟨fun q => ⟨lps q⟩, ?_, hrest⟩
  obtain ⟨layer, hlayer, hcode⟩ := h.first
  obtain ⟨P, -, hvalues⟩ := h.layered.values 0 layer hlayer
  have hmap := mapM_eq_some_map (l := queryIndices) (g := fun q => FRIQueryProof.mk (lps q))
    (f := fun q => (proveQuery layers.dropLast q).map FRIQueryProof.mk) fun q hq => by
      rw [hprove q hq, Option.map_some]
  unfold friProve
  cases layers with
  | nil => cases hlayer
  | cons layer0 rest =>
    obtain rfl : layer0 = layer := Option.some.inj hlayer
    have hany : (queryIndices.any fun q => decide (q < 0) || decide (q ≥ layer0.values.length)) =
        false := by
      rw [List.any_eq_false]
      intro q hq
      obtain ⟨h1, h2⟩ := hidx q hq
      rw [hvalues.length, Nat.sub_zero, Bool.or_eq_true, decide_eq_true_eq, decide_eq_true_eq]
      omega
    dsimp only
    rw [hany, if_neg Bool.false_ne_true, hmap, Option.map_some]

variable (sha256) in
theorem friGenerateQueryIndices_spec (hk : k ≤ 31) (hc : c.domainSize = 2 ^ k) {numQueries : Int}
    (hn : 0 < numQueries) : ∃ indices, friGenerateQueryIndices sha256 c numQueries = some indices ∧
      indices.length = numQueries.toNat ∧ ∀ q ∈ indices, 0 ≤ q ∧ q < (2 ^ k : Nat) := by
  have hlt : (2 : Int) ^ k < 2 ^ 32 := pow_lt_pow_right₀ (by decide) (by omega)
  have hpos : 0 < 2 ^ k := by positivity
  have hmod : (c.domainSize % 2 ^ 32).toNat = 2 ^ k := by
    rw [hc, Int.emod_eq_of_lt (by positivity) hlt, toNat_two_pow]
  unfold friGenerateQueryIndices
  dsimp only
  rw [hmod, if_neg (by omega), if_neg (by omega)]
  refine ⟨_, rfl, by rw [List.length_map, List.length_range], fun q hq => ?_⟩
  obtain ⟨i, -, rfl⟩ := List.mem_map.mp hq
  exact ⟨Int.natCast_nonneg _, Int.ofNat_lt.mpr (Nat.mod_lt _ hpos)⟩

theorem verifyQueryIndicesMatch_set {x : Int} {rest : List Int} (hrest : ∀ q ∈ rest, 0 ≤ q) :
    verifyQueryIndicesMatch ((x :: rest).set 0 idx) (x :: rest) idx = true := by
  have hany : (rest.any fun q => decide (q < 0)) = false := by
    rw [List.any_eq_false]
    intro q hq
    rw [decide_eq_true_eq, not_lt]
    exact hrest q hq
  unfold verifyQueryIndicesMatch
  rw [List.set_cons_zero, if_neg (by simp), if_neg (by simp), List.tail_cons, List.tail_cons, hany,
    if_neg Bool.false_ne_true, List.all_eq_true]
  exact fun q hq => List.contains_iff_mem.mpr hq

/-! ## Cells -/

section
variable (hk : k ≤ 31) (h : Committed sha256 k Q cfg codeword c layers)
  (hL : gf64Log2 cfg.finalLayerSize.toNat < k)
include hk h hL

theorem committed_bounds :
    powerOfTwo c.domainSize = true ∧ c.domainSize ≤ maxFRIDADomainSize ∧ 0 < c.numLayers ∧
      c.numLayers + 1 ≤ c.layerRoots.length ∧ c.finalValues.length ≠ 0 := by
  obtain ⟨last, hlast, hfinal⟩ := h.last
  obtain ⟨P, -, hvalues⟩ := h.layered.values _ last hlast
  have hnum := h.numLayers
  refine ⟨powerOfTwo_iff.mpr ⟨k, h.domainSize⟩, ?_, by omega, ?_, ?_⟩
  · rw [h.domainSize]
    exact pow_le_pow_right₀ (by decide) hk
  · rw [hnum, h.roots, layerRoots, List.length_map, h.length]
    exact le_refl _
  · rw [← hfinal, hvalues.length]
    positivity

/-- The prover's queries pass, so that only the final test of `FRIVerify` is
left. -/
theorem friVerify_iff (hq : 0 < cfg.numQueries ∧ cfg.numQueries ≤ queryIndices.length)
    {g : Int → FRIQueryProof} (hquery : ∀ q ∈ queryIndices, verifyQuery sha256 c q (g q) = true) :
    friVerify sha256 c ⟨queryIndices.map g⟩ queryIndices cfg = true ↔
      friVerifyFinalLowDegree c.finalValues c.numLayers.toNat c.domainSize = true := by
  obtain ⟨hpow, hmax, hnum, hroots, hne⟩ := committed_bounds hk h hL
  have hall : ∀ e ∈ queryIndices.zip (queryIndices.map g), verifyQuery sha256 c e.1 e.2 = true := by
    intro e he
    rw [← List.map_prod_left_eq_zip, List.mem_map] at he
    obtain ⟨q, hq, rfl⟩ := he
    exact hquery q hq
  rw [friVerify_eq_true_iff]
  constructor
  · rintro ⟨-, -, -, -, -, -, hdeg⟩
    exact hdeg
  · intro hdeg
    exact ⟨List.length_map _, hq, ⟨hnum, hroots⟩, ⟨hpow, hmax⟩, hne, hall, hdeg⟩

/-- The prover's opening of a cell passes if the final layer does. -/
theorem friVerifyOpeningProof_iff (hq : 0 < cfg.numQueries) (h0 : 0 ≤ idx)
    (hlt : idx < (2 ^ k : Nat)) :
    ∃ proof, friGenerateOpeningProof sha256 c codeword layers idx cfg = some proof ∧
      proof.cellIndex = idx ∧ proof.cellValue = codeword.getD idx.toNat 0 ∧
      (friVerifyOpeningProof sha256 c proof cfg = true ↔
        friVerifyFinalLowDegree c.finalValues c.numLayers.toNat c.domainSize = true) := by
  obtain ⟨layer, hlayer, hcode⟩ := h.first
  obtain ⟨P, -, hvalues⟩ := h.layered.values 0 layer hlayer
  have htree := h.layered.tree layer (List.mem_of_getElem? hlayer)
  rw [hcode] at hvalues htree
  have hlen : codeword.length = 2 ^ k := hvalues.length
  obtain ⟨indices, hgen, hcount, hrange⟩ := friGenerateQueryIndices_spec sha256 hk h.domainSize hq
  obtain ⟨x, rest, rfl⟩ : ∃ x rest, indices = x :: rest := List.exists_cons_of_ne_nil fun h => by
    rw [h, List.length_nil] at hcount
    omega
  have hrange' : ∀ q ∈ idx :: rest, 0 ≤ q ∧ q < (2 ^ k : Nat) := by
    intro q hq
    rcases List.mem_cons.mp hq with rfl | hq
    · exact ⟨h0, hlt⟩
    · exact hrange q (List.mem_cons_of_mem _ hq)
  obtain ⟨g, hprove, hquery⟩ := friProve_spec hk h hrange'
  have hqn : 0 < cfg.numQueries ∧ cfg.numQueries ≤ (idx :: rest).length := by
    rw [List.length_cons] at hcount ⊢
    omega
  have hfri := friVerify_iff hk h hL hqn fun q hq => (hquery q hq).1
  have hD : c.domainSize = (2 ^ k : Nat) := by
    rw [h.domainSize]
    push_cast
    rfl
  have hmerkle := friVerifyMerkleProof_generate sha256 (by omega) hlen h0 hlt
  refine ⟨⟨codeword.getD idx.toNat 0, idx,
    generateMerkleProof (friBuildMerkleTree sha256 codeword) idx.toNat codeword.length,
    some ⟨(idx :: rest).map g⟩, idx :: rest⟩, ?_, rfl, rfl, ?_⟩
  · unfold friGenerateOpeningProof
    rw [if_neg (by rw [hlen]; omega), hgen]
    cases layers with
    | nil => cases hlayer
    | cons layer0 tail =>
      obtain rfl : layer0 = layer := Option.some.inj hlayer
      dsimp only
      rw [Option.map_some, List.set_cons_zero, hprove, htree]
  · rw [friVerifyOpeningProof_eq_true_iff]
    constructor
    · rintro ⟨_, _, _, _, _, hsome, -, -, -, -, -, -, -, -, hver, -⟩
      rw [← Option.some.inj hsome] at hver
      exact hfri.mp hver
    · intro hdeg
      have hhead : ((g idx).layers.head?.any fun lp => lp.value = codeword.getD idx.toNat 0) = true := by
        obtain ⟨-, hlayers, hvalue⟩ := hquery idx List.mem_cons_self
        rw [h.numLayers] at hlayers
        cases hl : (g idx).layers with
        | nil =>
          rw [hl, List.length_nil] at hlayers
          omega
        | cons lp lps =>
          rw [List.head?_cons, Option.any_some, decide_eq_true_eq]
          exact hvalue lp (by rw [hl, List.head?_cons])
      have hroots : c.layerRoots = friBuildMerkleTree sha256 codeword 0 :: c.layerRoots.tail := by
        rw [h.roots]
        cases layers with
        | nil => cases hlayer
        | cons layer0 tail =>
          obtain rfl : layer0 = layer := Option.some.inj hlayer
          rw [layerRoots, List.map_cons, htree, List.tail_cons]
      refine ⟨_, _, _, _, (idx, g idx), rfl, ⟨h0, ?_⟩, ?_, hqn, hroots, ?_, hgen, ?_, ?_, hfri.mpr hdeg,
        ?_, hhead⟩
      · rw [hD]
        exact hlt
      · simp
      · omega
      · exact verifyQueryIndicesMatch_set fun q hq => (hrange q (List.mem_cons_of_mem _ hq)).1
      · rw [hD]
        exact hmerkle
      · rw [List.map_cons, List.zip_cons_cons, List.find?_cons_of_pos (by simp)]

end

/-- With all other checks passed, a cell is accepted if the final layer is. -/
theorem fridaVerifyCell_iff {data : FRIDABlobData} (hk : k ≤ 31)
    (h : Committed sha256 k Q cfg data.codeword data.commitment.toFRICommitment data.layers)
    (hcfg : data.commitment.toFRIConfig = cfg) (hR : 0 < cfg.codeRate) (hF : 2 ≤ cfg.finalLayerSize)
    (hL : gf64Log2 cfg.finalLayerSize.toNat < k)
    (hq : 0 < cfg.numQueries ∧ cfg.numQueries ≤ maxFRIDANumQueries) (h0 : 0 ≤ idx)
    (hlt : idx < (2 ^ k : Nat)) : ∃ cell proof, fridaGetCellValue data idx = .ok cell ∧
      fridaGenerateCellProof sha256 data idx = .ok proof ∧
      (fridaVerifyCell sha256 cell data.commitment proof idx = true ↔
        friVerifyFinalLowDegree data.commitment.finalValues data.commitment.numLayers.toNat
          data.commitment.domainSize = true) := by
  subst hcfg
  obtain ⟨proof, hproof, hidx, hvalue, hiff⟩ := friVerifyOpeningProof_iff hk h hL hq.1 h0 hlt
  obtain ⟨layer, hlayer, hcode⟩ := h.first
  obtain ⟨P, -, hvalues⟩ := h.layered.values 0 layer hlayer
  rw [hcode] at hvalues
  have hlen : data.codeword.length = 2 ^ k := hvalues.length
  have hD : data.commitment.domainSize = (2 ^ k : Nat) := by
    rw [show data.commitment.domainSize = 2 ^ k from h.domainSize]
    push_cast
    rfl
  refine ⟨copyInto cellSize (gf64ToBytes (data.codeword.getD idx.toNat 0)), proof, ?_, ?_, ?_⟩
  · unfold fridaGetCellValue
    rw [if_neg (by rw [hD]; omega), if_neg (by rw [hlen]; omega)]
  · unfold fridaGenerateCellProof
    rw [if_neg (by rw [hD]; omega), if_neg (by rw [h.length]; omega), hproof]
  · have hcell : gf64FromBytes ((copyInto cellSize (gf64ToBytes
        (data.codeword.getD idx.toNat 0))).toList.take 8) = data.codeword.getD idx.toNat 0 := by
      have hcan := hvalues.canonical idx.toNat (show idx.toNat < 2 ^ k by omega)
      generalize data.codeword.getD idx.toNat 0 = v at hcan ⊢
      have hfit : (gf64ToBytes v).length ≤ cellSize := by
        rw [length_gf64ToBytes]
        decide
      have htake := take_copyInto hfit
      rw [length_gf64ToBytes] at htake
      rw [htake, gf64FromBytes_gf64ToBytes hcan]
    rw [fridaVerifyCell_eq_true_iff, hcell, hvalue]
    constructor
    · rintro ⟨-, -, -, -, -, -, -, -, -, -, hopen⟩
      exact hiff.mp hopen
    · intro hdeg
      obtain ⟨hpow, hmax, hnum, hroots, hfinal⟩ := committed_bounds hk h hL
      have hroots' : 0 < data.commitment.toFRICommitment.layerRoots.length := by omega
      exact ⟨⟨h0, by rw [hD]; exact hlt⟩, ⟨hpow, hmax⟩, hnum, hroots'.ne', hfinal, hR, hF, hq, hidx,
        rfl, hiff.mpr hdeg⟩

end Qau.Fri
