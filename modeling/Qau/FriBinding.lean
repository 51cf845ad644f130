import Qau.FriCodeword
import Qau.FriStructure
import Qau.MerkleArray

/-!
# What a blob commitment binds

The first root binds the codeword, the codeword the coefficients, and the
coefficients are the words of the blob modulo p (`elements_eq_of_root_eq`).
So two blobs of one length share their commitment exactly when all their
words are congruent. An accepted cell is bound through the opened value: its
first word modulo p, if the Merkle paths have one length; the 24 bytes after
it are not looked at. A blob that is too long is committed as its prefix.

SHA-256 is assumed to have no collision among the messages that are hashed
for the first layers and for the paths at hand.
-/

namespace Qau.Fri

open Polynomial

variable {codeword : List GF64Element} {data : FRIDABlobData}

/-! ## Blobs -/

/-- The number of coefficients that a configuration has room for. -/
def FRIConfig.polyDegree (cfg : FRIConfig) : Nat := (cfg.domainSize.tdiv cfg.codeRate).toNat

/-- The word of a blob at position `i`. -/
def blobWord (blob : Bytes) (i : Nat) : UInt64 := wordOf ((blob.drop (8 * i)).take 8)

/-- The words of two blobs are congruent. -/
def Congruent (blob blob' : Bytes) : Prop :=
  ∀ i, (blobWord blob i).toNat % prime = (blobWord blob' i).toNat % prime

variable (sha256 : Bytes → Digest)

/-- What is hashed for the first layer. -/
def codewordMessages (codeword : List GF64Element) : List Bytes :=
  (codeword.map fun v => 0x00 :: gf64ToBytes v) ++
    treeMessages sha256 (codeword.map (friLeafHash sha256))

variable {sha256} {blob blob' : Bytes} {cfg : FRIConfig} {k : Nat}

theorem length_friBlobToFieldElements (blob : Bytes) :
    (friBlobToFieldElements blob).length = (blob.length + 7) / 8 := by
  rw [friBlobToFieldElements, List.length_map, List.length_range]

theorem gf64FromBytes_eq_iff {a b : Bytes} :
    gf64FromBytes a = gf64FromBytes b ↔ (wordOf a).toNat % prime = (wordOf b).toNat % prime := by
  rw [← UInt64.toNat_inj, toNat_gf64FromBytes, toNat_gf64FromBytes]

theorem elements_eq_iff (hlen : blob.length = blob'.length) :
    friBlobToFieldElements blob = friBlobToFieldElements blob' ↔ Congruent blob blob' := by
  constructor
  · intro h i
    rw [blobWord, blobWord, ← gf64FromBytes_eq_iff]
    by_cases hi : i < (blob.length + 7) / 8
    · have hget := congrArg (fun l => l[i]?) h
      unfold friBlobToFieldElements at hget
      rw [List.getElem?_map, List.getElem?_map, List.getElem?_range hi,
        List.getElem?_range (hlen ▸ hi)] at hget
      exact Option.some.inj hget
    · rw [List.drop_of_length_le (by omega), List.drop_of_length_le (by omega)]
  · intro h
    unfold friBlobToFieldElements
    rw [← hlen]
    exact List.map_congr_left fun i _ => gf64FromBytes_eq_iff.mpr (h i)

theorem fridaCommitBlob_congr (hempty : blob.length = 0 ↔ blob'.length = 0)
    (h : blobCoeffs cfg.polyDegree blob = blobCoeffs cfg.polyDegree blob') :
    fridaCommitBlob sha256 blob cfg = fridaCommitBlob sha256 blob' cfg := by
  have hrun : friCommitBlob sha256 blob cfg = friCommitBlob sha256 blob' cfg := by
    show gf64ReedSolomonExtend (blobCoeffs cfg.polyDegree blob) cfg.domainSize >>= _ =
      gf64ReedSolomonExtend (blobCoeffs cfg.polyDegree blob') cfg.domainSize >>= _
    rw [h]
  unfold fridaCommitBlob
  rw [hrun, if_congr hempty rfl rfl]

theorem codeword_eq_of_root_eq {codeword' : List GF64Element}
    (hlen : codeword.length = codeword'.length)
    (hfree : Collisionless sha256 (codewordMessages sha256 codeword ++
      codewordMessages sha256 codeword'))
    (h : friBuildMerkleTree sha256 codeword 0 = friBuildMerkleTree sha256 codeword' 0) :
    codeword = codeword' := by
  have hleaves := leaves_eq_of_root_eq (by simpa using hlen) (hfree.mono ?_) h
  · refine List.ext_getElem hlen fun i hi hi' => ?_
    have hleaf : friLeafHash sha256 codeword[i] = friLeafHash sha256 codeword'[i] := by
      have := congrArg (fun l => l[i]?) hleaves
      rw [List.getElem?_map, List.getElem?_map, List.getElem?_eq_getElem hi,
        List.getElem?_eq_getElem hi'] at this
      exact Option.some.inj this
    have hmessage := hfree _
      (List.mem_append_left _ (List.mem_append_left _ (List.mem_map_of_mem (List.getElem_mem hi)))) _
      (List.mem_append_right _ (List.mem_append_left _ (List.mem_map_of_mem (List.getElem_mem hi'))))
      hleaf
    exact gf64ToBytes_inj (List.cons.inj hmessage).2
  · exact List.append_subset.mpr ⟨fun x hx => List.mem_append_left _ (List.mem_append_right _ hx),
      fun x hx => List.mem_append_right _ (List.mem_append_right _ hx)⟩

/-- The values on the full domain bind the coefficients. -/
theorem coeffs_eq_of_evaluates (hk : k ≤ 32) {coeffs coeffs' : List GF64Element}
    (hlen : coeffs.length = coeffs'.length) (hle : coeffs.length ≤ 2 ^ k)
    (hcan : ∀ t, Canonical (coeffs.getD t 0)) (hcan' : ∀ t, Canonical (coeffs'.getD t 0))
    (h : Evaluates k 0 (coeffPoly coeffs) codeword)
    (h' : Evaluates k 0 (coeffPoly coeffs') codeword) : coeffs = coeffs' := by
  have hdeg : ∀ l : List GF64Element, l.length ≤ 2 ^ k →
      (coeffPoly l).degree < (Finset.range (2 ^ k)).card := by
    intro l hl
    rw [Finset.card_range]
    exact (degree_coeffPoly_lt l).trans_le (by exact_mod_cast hl)
  have hinj : Set.InjOn (fun j => domainRoot k ^ (2 ^ 0 * j)) (Finset.range (2 ^ k)) := by
    intro a ha b hb hab
    dsimp only at hab
    rw [pow_zero, one_mul, one_mul] at hab
    exact (isPrimitiveRoot_generator hk).pow_inj (by simpa using ha) (by simpa using hb) hab
  have hpoly : coeffPoly coeffs = coeffPoly coeffs' :=
    eq_of_degrees_lt_of_eval_index_eq _ hinj (hdeg coeffs hle) (hdeg coeffs' (hlen ▸ hle)) fun j hj =>
      (h.eval j (Finset.mem_range.mp hj)).symm.trans (h'.eval j (Finset.mem_range.mp hj))
  refine List.ext_getElem hlen fun t ht ht' => ?_
  have hcoeff := congrArg (fun P => P.coeff t) hpoly
  rw [coeff_coeffPoly, coeff_coeffPoly] at hcoeff
  have heq := toField_inj (hcan t) (hcan' t) hcoeff
  rwa [List.getD_eq_getElem _ _ ht, List.getD_eq_getElem _ _ ht'] at heq

theorem elements_eq_of_blobCoeffs_eq {n : Nat} (hlen : blob.length = blob'.length)
    (hfit : blob.length ≤ 8 * n) (h : blobCoeffs n blob = blobCoeffs n blob') :
    friBlobToFieldElements blob = friBlobToFieldElements blob' := by
  have hl := length_friBlobToFieldElements blob
  have hl' := length_friBlobToFieldElements blob'
  unfold blobCoeffs at h
  rw [List.take_of_length_le, List.take_of_length_le] at h
  · exact (List.append_inj h (by omega)).1
  all_goals
    rw [List.length_append, List.length_replicate]
    omega

theorem fridaCommitBlob_root (h : fridaCommitBlob sha256 blob cfg = .ok data) :
    ∃ k, k ≤ 32 ∧ cfg.polyDegree ≤ 2 ^ k ∧
      Evaluates k 0 (coeffPoly (blobCoeffs cfg.polyDegree blob)) data.codeword ∧
      cfg.domainSize = 2 ^ k ∧
      data.commitment.layerRoots.head? = some (friBuildMerkleTree sha256 data.codeword 0) := by
  obtain ⟨hblob, hR, hF, k, hk, hcfg⟩ := usable_of_fridaCommitBlob h
  obtain ⟨data', hdata', hc, -, heval⟩ := fridaCommitBlob_spec sha256 (Q := fun _ _ => True) hblob hR hF hk
    hcfg (fun _ _ _ _ => trivial) trivial
  obtain rfl : data' = data := Except.ok.inj (hdata'.symm.trans h)
  rw [← toNat_tdiv hR hcfg] at heval
  refine ⟨k, hk, ?_, heval, hcfg, ?_⟩
  · rw [FRIConfig.polyDegree, toNat_tdiv hR hcfg]
    exact Nat.div_le_self _ _
  · obtain ⟨layer, hlayer, hvalues⟩ := hc.first
    have htree := hc.layered.tree layer (List.mem_of_getElem? hlayer)
    change data'.commitment.toFRICommitment.layerRoots.head? = _
    rw [hc.roots, layerRoots, List.head?_map, List.head?_eq_getElem?, hlayer, Option.map_some, htree,
      hvalues]

section
variable (hlen : blob.length = blob'.length) (hfit : blob.length ≤ 8 * cfg.polyDegree)
  {data data' : FRIDABlobData} (h : fridaCommitBlob sha256 blob cfg = .ok data)
  (h' : fridaCommitBlob sha256 blob' cfg = .ok data')
  (hfree : Collisionless sha256 (codewordMessages sha256 data.codeword ++ codewordMessages sha256 data'.codeword))
include hlen hfit h h' hfree

theorem elements_eq_of_root_eq
    (hroot : data.commitment.layerRoots.head? = data'.commitment.layerRoots.head?) :
    friBlobToFieldElements blob = friBlobToFieldElements blob' := by
  obtain ⟨k, hk, hle, heval, hcfg, hhead⟩ := fridaCommitBlob_root h
  obtain ⟨k', hk', -, heval', hcfg', hhead'⟩ := fridaCommitBlob_root h'
  obtain rfl : k = k' := Nat.pow_right_injective (le_refl 2)
    (by exact_mod_cast hcfg.symm.trans hcfg')
  rw [hhead, hhead'] at hroot
  have hcode := codeword_eq_of_root_eq (heval.length.trans heval'.length.symm) hfree
    (Option.some.inj hroot)
  rw [hcode] at heval
  refine elements_eq_of_blobCoeffs_eq hlen hfit (coeffs_eq_of_evaluates hk ?_ ?_
    (canonical_blobCoeffs _ _) (canonical_blobCoeffs _ _) heval heval')
  · rw [length_blobCoeffs, length_blobCoeffs]
  · rw [length_blobCoeffs]
    exact hle

/-- Two blobs of one length share their commitment exactly when their words
are congruent. -/
theorem commitment_eq_iff : data.commitment = data'.commitment ↔ Congruent blob blob' := by
  rw [← elements_eq_iff hlen]
  constructor
  · intro heq
    exact elements_eq_of_root_eq hlen hfit h h' hfree (by rw [heq])
  · intro heq
    have hcoeffs : blobCoeffs cfg.polyDegree blob = blobCoeffs cfg.polyDegree blob' := by
      rw [blobCoeffs, blobCoeffs, heq]
    rw [fridaCommitBlob_congr (by rw [hlen]) hcoeffs, h'] at h
    rw [Except.ok.inj h]

end

/-! ## Cells -/

variable (sha256) in
/-- What is hashed for the cell of an opening. -/
def openingMessages (proof : FRIOpeningProof) : List Bytes :=
  (0x00 :: gf64ToBytes proof.cellValue) ::
    climbMessages sha256 (proofSteps proof.cellIndex.toNat proof.merkleProof)
      (friLeafHash sha256 proof.cellValue)

theorem fridaVerifyCell_opens {cell : Cell} {commitment : FRIDACommitment} {proof : FRIOpeningProof}
    {cellIndex : Int} (h : fridaVerifyCell sha256 cell commitment proof cellIndex = true) :
    gf64FromBytes (cell.toList.take 8) = proof.cellValue ∧ proof.cellIndex = cellIndex ∧
      ∃ root0, commitment.layerRoots.head? = some root0 ∧
        friVerifyMerkleProof sha256 root0 proof.cellValue cellIndex commitment.domainSize
          proof.merkleProof = true := by
  obtain ⟨-, -, -, -, -, -, -, -, hidx, hvalue, hopen⟩ := fridaVerifyCell_eq_true_iff.mp h
  obtain ⟨_, root0, rest, _, _, -, -, -, -, hroots, -, -, -, hmerkle, -⟩ :=
    friVerifyOpeningProof_eq_true_iff.mp hopen
  change commitment.layerRoots = root0 :: rest at hroots
  rw [hidx] at hmerkle
  exact ⟨hvalue, hidx, root0, by rw [hroots, List.head?_cons], hmerkle⟩

variable {commitment : FRIDACommitment} {cellIndex : Int} {cell cell' : Cell}
  {proof proof' : FRIOpeningProof}

/-- Two openings of one index with paths of one length have the same value. -/
theorem cellValue_eq_of_length_eq
    (h : fridaVerifyCell sha256 cell commitment proof cellIndex = true)
    (h' : fridaVerifyCell sha256 cell' commitment proof' cellIndex = true)
    (hfree : Collisionless sha256 (openingMessages sha256 proof ++ openingMessages sha256 proof'))
    (hlen : proof.merkleProof.length = proof'.merkleProof.length) :
    proof.cellValue = proof'.cellValue := by
  obtain ⟨-, hidx, root, hroot, hmerkle⟩ := fridaVerifyCell_opens h
  obtain ⟨-, hidx', root', hroot', hmerkle'⟩ := fridaVerifyCell_opens h'
  obtain rfl : root = root' := Option.some.inj (hroot.symm.trans hroot')
  subst hidx
  have hleaf := leafHash_eq_of_length_eq hlen (hfree.mono ?_) hmerkle hmerkle'
  · have hmessage := hfree _ (List.mem_append_left _ List.mem_cons_self) _
      (List.mem_append_right _ List.mem_cons_self) hleaf
    exact gf64ToBytes_inj (List.cons.inj hmessage).2
  · rw [← hidx']
    refine List.append_subset.mpr ⟨fun x hx => ?_, fun x hx => ?_⟩
    · rw [hidx'] at hx
      exact List.mem_append_left _ (List.mem_cons_of_mem _ hx)
    · exact List.mem_append_right _ (List.mem_cons_of_mem _ hx)

def cellWord (cell : Cell) : UInt64 := wordOf (cell.toList.take 8)

/-- What is not looked at: the rest of the cells, on which side of p the first
words are, and the lengths of the paths. -/
structure CellsAlike (cell cell' : Cell) (proof proof' : FRIOpeningProof) : Prop where
  rest : cell.toList.drop 8 = cell'.toList.drop 8
  side : cellWord cell < goldilocksP ↔ cellWord cell' < goldilocksP
  path : proof.merkleProof.length = proof'.merkleProof.length ∨ proof.cellValue = proof'.cellValue

theorem cellWord_eq {v : GF64Element}
    (hside : cellWord cell < goldilocksP ↔ cellWord cell' < goldilocksP)
    (h : gf64FromBytes (cell.toList.take 8) = v) (h' : gf64FromBytes (cell'.toList.take 8) = v) :
    cellWord cell = cellWord cell' := by
  unfold gf64FromBytes at h h'
  change (if cellWord cell ≥ goldilocksP then _ else cellWord cell) = v at h
  change (if cellWord cell' ≥ goldilocksP then _ else cellWord cell') = v at h'
  by_cases hlt : cellWord cell < goldilocksP
  · rw [if_neg (UInt64.not_le.mpr hlt)] at h
    rw [if_neg (UInt64.not_le.mpr (hside.mp hlt))] at h'
    exact h.trans h'.symm
  · rw [if_pos (UInt64.not_lt.mp hlt)] at h
    rw [if_pos (UInt64.not_lt.mp fun hlt' => hlt (hside.mpr hlt'))] at h'
    exact sub_left_injective (h.trans h'.symm)

theorem cell_eq_iff (h : fridaVerifyCell sha256 cell commitment proof cellIndex = true)
    (h' : fridaVerifyCell sha256 cell' commitment proof' cellIndex = true)
    (hfree : Collisionless sha256 (openingMessages sha256 proof ++ openingMessages sha256 proof')) :
    cell = cell' ↔ CellsAlike cell cell' proof proof' := by
  obtain ⟨hvalue, -⟩ := fridaVerifyCell_opens h
  obtain ⟨hvalue', -⟩ := fridaVerifyCell_opens h'
  constructor
  · rintro rfl
    exact ⟨rfl, Iff.rfl, .inr (hvalue.symm.trans hvalue')⟩
  · rintro ⟨hrest, hside, hpath⟩
    have heq : proof.cellValue = proof'.cellValue :=
      hpath.elim (cellValue_eq_of_length_eq h h' hfree) id
    have hword := cellWord_eq hside (hvalue.trans heq) hvalue'
    have h8 : ∀ c : Cell, (c.toList.take 8).length = 8 := by
      intro c
      rw [List.length_take, List.Vector.toList_length]
      rfl
    have hfirst := wordOf_inj ((h8 cell).trans (h8 cell').symm) (h8 cell).le hword
    apply List.Vector.eq
    rw [← List.take_append_drop 8 cell.toList, hfirst, hrest, List.take_append_drop]

/-! ## Oversized blobs -/

theorem fridaCommitBlob_ok_iff : (∃ data, fridaCommitBlob sha256 blob cfg = .ok data) ↔
    blob ≠ [] ∧ Usable cfg := by
  constructor
  · rintro ⟨data, h⟩
    exact usable_of_fridaCommitBlob h
  · rintro ⟨hblob, hR, hF, k, hk, hcfg⟩
    obtain ⟨data, h, -⟩ := fridaCommitBlob_spec sha256 (Q := fun _ _ => True) hblob hR hF hk hcfg
      (fun _ _ _ _ => trivial) trivial
    exact ⟨data, h⟩

/-- Equal commitments of blobs that fit are of one blob, unless two different
blobs are congruent; two accepted cells are one, if they agree where the
verifier does not look; and a blob that does not fit is refused only with a
configuration that refuses every blob. -/
theorem frida_binds_iff (sha256 : Bytes → Digest) :
    (∀ cfg blob blob' data data', blob.length = blob'.length → blob.length ≤ 8 * cfg.polyDegree →
      fridaCommitBlob sha256 blob cfg = .ok data → fridaCommitBlob sha256 blob' cfg = .ok data' →
      Collisionless sha256 (codewordMessages sha256 data.codeword ++
        codewordMessages sha256 data'.codeword) →
      ((data.commitment = data'.commitment → blob = blob') ↔
        (blob = blob' ∨ ¬ Congruent blob blob'))) ∧
    (∀ commitment cellIndex cell cell' proof proof',
      fridaVerifyCell sha256 cell commitment proof cellIndex = true →
      fridaVerifyCell sha256 cell' commitment proof' cellIndex = true →
      Collisionless sha256 (openingMessages sha256 proof ++ openingMessages sha256 proof') →
      (cell = cell' ↔ CellsAlike cell cell' proof proof')) ∧
    (∀ cfg blob, 8 * cfg.polyDegree < blob.length →
      ((¬ ∃ data, fridaCommitBlob sha256 blob cfg = .ok data) ↔ ¬ Usable cfg)) := by
  refine ⟨?_, ?_, ?_⟩
  · intro cfg blob blob' data data' hlen hfit h h' hfree
    rw [commitment_eq_iff hlen hfit h h' hfree]
    tauto
  · intro commitment cellIndex cell cell' proof proof' h h' hfree
    exact cell_eq_iff h h' hfree
  · intro cfg blob hlong
    have hblob : blob ≠ [] := List.ne_nil_of_length_pos (by omega)
    rw [fridaCommitBlob_ok_iff, and_iff_right hblob]

/-- The opening of the constant codeword 1 at index 2. -/
def onesOpening : FRIOpeningProof :=
  let leaf := friLeafHash constantSha256 1
  let path := [leaf.toList, (merkleInternalHash constantSha256 leaf leaf).toList]
  { cellValue := 1
    cellIndex := 2
    merkleProof := path
    friProof := some ⟨[⟨[⟨1, 1, 2, path, path⟩]⟩]⟩
    queryIndices := [2] }

/-- The commitment to the constant codeword 1 on four points. -/
def onesCommitment : FRIDACommitment :=
  let leaf := friLeafHash constantSha256 1
  let two := merkleInternalHash constantSha256 leaf leaf
  { layerRoots := [merkleInternalHash constantSha256 two two, two]
    finalValues := [1, 1]
    numLayers := 1
    domainSize := 4
    codeRate := 2
    numQueries := 1
    finalLayerSize := 2 }

theorem codeword_constant {blob : Bytes} (h : fridaCommitBlob constantSha256 blob cfg = .ok data)
    (hcode : (fridaCommitBlob constantSha256 blob cfg).toOption.map (·.codeword) = some codeword) :
    data.codeword = codeword := by
  rw [h] at hcode
  exact Option.some.inj hcode

/-- With four points, rate 2 and two final values: the blobs 1 and 2 have
different commitments, the cell 1 with another ninth byte is accepted
with the same proof, and a blob of 17 bytes is not refused. -/
theorem frida_binds_constants : let cfg : FRIConfig := ⟨4, 2, 1, 2⟩
    (∃ data data', fridaCommitBlob constantSha256 [1] cfg = .ok data ∧
      fridaCommitBlob constantSha256 [2] cfg = .ok data' ∧ data.commitment ≠ data'.commitment) ∧
    (let cell := copyInto cellSize (gf64ToBytes 1)
      let cell' := copyInto cellSize (gf64ToBytes 1 ++ [7])
      fridaVerifyCell constantSha256 cell onesCommitment onesOpening 2 = true ∧
      fridaVerifyCell constantSha256 cell' onesCommitment onesOpening 2 = true ∧
      ¬ CellsAlike cell cell' onesOpening onesOpening) ∧
    (∃ data, fridaCommitBlob constantSha256 (List.replicate 17 0) cfg = .ok data) := by
  intro cfg
  have husable : Usable cfg := ⟨by decide, by decide, 2, by decide, rfl⟩
  obtain ⟨hblobs, hcells, hlong⟩ := frida_binds_iff constantSha256
  refine ⟨?_, ?_, ?_⟩
  · obtain ⟨data, h⟩ : ∃ data, fridaCommitBlob constantSha256 [1] cfg = .ok data :=
      fridaCommitBlob_ok_iff.mpr ⟨by decide, husable⟩
    obtain ⟨data', h'⟩ : ∃ data, fridaCommitBlob constantSha256 [2] cfg = .ok data :=
      fridaCommitBlob_ok_iff.mpr ⟨by decide, husable⟩
    have hcode : data.codeword = [1, 1, 1, 1] := codeword_constant h (by decide +kernel)
    have hcode' : data'.codeword = [2, 2, 2, 2] := codeword_constant h' (by decide +kernel)
    have hfree : Collisionless constantSha256 (codewordMessages constantSha256 data.codeword ++
        codewordMessages constantSha256 data'.codeword) := by
      rw [hcode, hcode']
      unfold Collisionless
      decide +kernel
    refine ⟨data, data', h, h', fun heq => ?_⟩
    have := (hblobs cfg [1] [2] data data' rfl (by decide) h h' hfree).mpr
      (.inr fun hcong => absurd (hcong 0) (by decide +kernel)) heq
    exact absurd this (by decide)
  · have hfree : Collisionless constantSha256
        (openingMessages constantSha256 onesOpening ++ openingMessages constantSha256 onesOpening) := by
      unfold Collisionless
      decide +kernel
    intro cell cell'
    have h : fridaVerifyCell constantSha256 cell onesCommitment onesOpening 2 = true := by
      decide +kernel
    have h' : fridaVerifyCell constantSha256 cell' onesCommitment onesOpening 2 = true := by
      decide +kernel
    refine ⟨h, h', ?_⟩
    rw [← hcells onesCommitment 2 cell cell' onesOpening onesOpening h h' hfree]
    decide
  · by_contra hno
    exact (hlong cfg (List.replicate 17 0) (by decide)).mp hno husable

/-- The bytes of p and eight zero bytes have one commitment, and so have a blob
of 16 bytes and the same with a byte behind, with the configuration for two
coefficients and whatever the hash function is. -/
theorem frida_binds_modulus : ∃ cfg, defaultFRIConfig 2 = some cfg ∧ 8 * cfg.polyDegree < 17 ∧
      ∀ sha256 : Bytes → Digest, ∃ data data',
        fridaCommitBlob sha256 [1, 0, 0, 0, 255, 255, 255, 255] cfg = .ok data ∧
        fridaCommitBlob sha256 (List.replicate 8 0) cfg = .ok data ∧
        fridaCommitBlob sha256 (List.replicate 17 9) cfg = .ok data' ∧
        fridaCommitBlob sha256 (List.replicate 16 9) cfg = .ok data' := by
  refine ⟨⟨8, 4, 80, 4⟩, by decide, by decide, fun sha256 => ?_⟩
  have husable : Usable ⟨8, 4, 80, 4⟩ := ⟨by decide, by decide, 3, by decide, rfl⟩
  obtain ⟨data, h⟩ : ∃ data, fridaCommitBlob sha256 (List.replicate 8 0) ⟨8, 4, 80, 4⟩ = .ok data :=
    fridaCommitBlob_ok_iff.mpr ⟨by decide, husable⟩
  obtain ⟨data', h'⟩ : ∃ data, fridaCommitBlob sha256 (List.replicate 16 9) ⟨8, 4, 80, 4⟩ = .ok data :=
    fridaCommitBlob_ok_iff.mpr ⟨by decide, husable⟩
  refine ⟨data, data', ?_, h, ?_, h'⟩
  · rw [← h]
    exact fridaCommitBlob_congr (by decide) (by decide +kernel)
  · rw [← h']
    exact fridaCommitBlob_congr (by decide) (by decide +kernel)

end Qau.Fri
