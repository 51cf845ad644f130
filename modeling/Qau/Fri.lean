import Qau.Goldilocks
import Qau.Butterfly
import Qau.MerkleCommitment

/-!
# The FRI commitment

A translation of `fri_ntt.go`, `fri_commitment.go` and of the cell openings
in `fri_opening.go` and `fri_da_integration.go`. A blob is read as the
coefficients of a polynomial, evaluated on a domain of roots of unity, and
folded in halves; every layer is the leaf list of a hash tree, and the last
one is sent in clear. The verifier checks, for each queried index, the
Merkle paths of the opened pairs and that each pair folds to the value
opened in the next layer.

SHA-256 is the parameter `sha256`. Numbers that come from a configuration,
a commitment or a proof are `Int`, as the source's checks for negative
values need; sizes and indices computed after those checks are `Nat`.
`none` stands for a nil result or an error, and in
`friGenerateQueryIndices` also for the division by zero that the source
runs into at a domain of 2^32 points.
-/

namespace Qau.Fri

open Butterfly (Ops reverseBits)

/-! ## Configurations -/

structure FRIConfig where
  domainSize : Int
  codeRate : Int
  numQueries : Int
  finalLayerSize : Int
deriving DecidableEq, Repr

/-- `n > 0 && n&(n-1) == 0`. -/
def powerOfTwo (n : Int) : Bool := 0 < n && n.toNat &&& (n.toNat - 1) = 0

def minProductionNumQueries : Int := 40

def maxFRIDANumQueries : Int := 4096

def maxFRIDADomainSize : Int := 2 ^ 31

/-- The errors of `ValidateFRIConfigForProduction`, with the value they
report. -/
inductive FRIConfigError where
  | domainSize (got : Int)
  | codeRate (got : Int)
  | numQueries (got : Int)
  | finalLayerSize (got : Int)
deriving DecidableEq, Repr

def validateFRIConfigForProduction (cfg : FRIConfig) : Except FRIConfigError Unit :=
  if !powerOfTwo cfg.domainSize then .error (.domainSize cfg.domainSize)
  else if cfg.codeRate < 2 then .error (.codeRate cfg.codeRate)
  else if cfg.numQueries < minProductionNumQueries then .error (.numQueries cfg.numQueries)
  else if cfg.finalLayerSize < 2 then .error (.finalLayerSize cfg.finalLayerSize)
  else .ok ()

/-- The wrap-around of a 64-bit `int`. -/
def wrapInt (n : Int) : Int := (n + 2 ^ 63) % 2 ^ 64 - 2 ^ 63

/-- The doubling loop of `DefaultFRIConfig`. Above 2^62 the counter wraps to
a negative number and then stays 0, so that the loop does not end: `none`. -/
def roundUp (n : Int) : (fuel : Nat) → (next : Int) → Option Int
  | 0, _ => none
  | fuel + 1, next => if next < n then roundUp n fuel (wrapInt (2 * next)) else some next

def defaultFRIConfig (polyDegree : Int) : Option FRIConfig :=
  let polyDegree := if polyDegree ≤ 0 then 1 else polyDegree
  (if powerOfTwo polyDegree then some polyDegree else roundUp polyDegree 65 1).map fun polyDegree =>
    { domainSize := wrapInt (polyDegree * 4)
      codeRate := 4
      numQueries := 80
      finalLayerSize := 4 }

/-! ## The transform -/

/-- `gf64Log2`: the number of halvings down to 1. -/
def gf64Log2 (n : Nat) : Nat := Nat.log2 n

def gf64Ops : Ops GF64Element := ⟨gf64Add, gf64Sub, gf64Mul, 1⟩

/-- `GF64NTT` for a length that is a power of two, as its callers check. -/
def gf64NTT (a : List GF64Element) (omega : GF64Element) : List GF64Element :=
  let bits := gf64Log2 a.length
  let root s := gf64Pow omega (UInt64.ofNat (a.length / 2 ^ (s + 1)))
  (List.range a.length).map (Butterfly.transform gf64Ops bits root fun i => a.getD i 0)

/-- `GF64INTT`; `none` is the nil result for a root that has no inverse. -/
def gf64INTT (a : List GF64Element) (omega : GF64Element) : Option (List GF64Element) :=
  if a.length ≤ 1 then some a
  else do
    let omegaInv ← gf64Inverse omega
    let nInv ← gf64Inverse (UInt64.ofNat a.length)
    some ((gf64NTT a omegaInv).map (gf64Mul · nInv))

def gf64ReedSolomonExtend (coeffs : List GF64Element) (m : Int) : Option (List GF64Element) :=
  if m ≤ 0 ∨ m < coeffs.length then none
  else if !powerOfTwo m then none
  else
    let padded := coeffs ++ List.replicate (m.toNat - coeffs.length) 0
    let omega := gf64Generator (gf64Log2 m.toNat)
    if omega = 0 then none else some (gf64NTT padded omega)

/-! ## Layers -/

structure FriLayer where
  values : List GF64Element
  merkleTree : Nat → Digest

structure FRICommitment where
  layerRoots : List Digest
  finalValues : List GF64Element
  numLayers : Int
  domainSize : Int
deriving DecidableEq

structure FriLayerProof where
  value : GF64Element
  siblingValue : GF64Element
  index : Int
  merkleProof : List Bytes
  siblingMerkleProof : List Bytes
deriving DecidableEq

structure FRIQueryProof where
  layers : List FriLayerProof
deriving DecidableEq

structure FRIProof where
  queries : List FRIQueryProof
deriving DecidableEq

def friFoldOne (cEven cOdd x alpha : GF64Element) : Option GF64Element :=
  let twoInv := (gf64Inverse 2).getD 0
  let sum := gf64Mul (gf64Add cEven cOdd) twoInv
  (gf64Inverse x).map fun xInv =>
    let diff := gf64Mul (gf64Sub cEven cOdd) (gf64Mul twoInv xInv)
    gf64Add sum (gf64Mul alpha diff)

/-- `friFold`; the body of its loop is `friFoldOne`. -/
def friFold (c domain : List GF64Element) (alpha : GF64Element) : Option (List GF64Element) :=
  let halfN := c.length / 2
  if c.length < 2 then none
  else if domain.length < halfN then none
  else (List.range halfN).mapM fun j =>
    friFoldOne (c.getD j 0) (c.getD (j + halfN) 0) (domain.getD j 0) alpha

/-- The loop of `friGenerateLayerDomain`: between two points the current one
is multiplied `step` times by the full root. -/
def layerPoints (omegaFull : GF64Element) (step : Nat) : (size : Nat) → (current : GF64Element) →
    List GF64Element
  | 0, _ => []
  | size + 1, current =>
    current :: layerPoints omegaFull step size ((fun c => gf64Mul c omegaFull)^[step] current)

/-- `friGenerateLayerDomain`; the callers' layer indices are not negative. -/
def friGenerateLayerDomain (layerIdx : Nat) (domainSize : Int) : Option (List GF64Element) :=
  if domainSize ≤ 0 then none
  else
    let size := if domainSize.toNat / 2 ^ layerIdx < 1 then 1 else domainSize.toNat / 2 ^ layerIdx
    let omegaFull := gf64Generator (gf64Log2 domainSize.toNat)
    if omegaFull = 0 then none
    else if 64 ≤ layerIdx then none
    else some (layerPoints omegaFull (2 ^ layerIdx) size 1)

section Hash

variable (sha256 : Bytes → Digest)

def friLeafHash (e : GF64Element) : Digest := sha256 (0x00 :: gf64ToBytes e)

def friBuildMerkleTree (values : List GF64Element) : Nat → Digest :=
  buildMerkleTree sha256 (values.map (friLeafHash sha256))

def friVerifyMerkleProof (root : Digest) (value : GF64Element) (index count : Int)
    (proof : List Bytes) : Bool :=
  verifyMerkleProof sha256 root (friLeafHash sha256 value) index count proof

def friChallenge (data : Bytes) : GF64Element := gf64FromBytes ((sha256 data).toList.take 8)

/-- The challenge that follows some roots. -/
def challengeOf (roots : List Digest) : GF64Element :=
  friChallenge sha256 (roots.flatMap fun root => root.toList)

/-! ## Commit -/

/-- The folding loop of `FRICommit`: the values, roots and layers after it,
from the layer `i` on. -/
def foldLayers (cfg : FRIConfig) : (rounds i : Nat) → (current : List GF64Element) →
    (roots : List Digest) → (layers : List FriLayer) →
    Option (List GF64Element × List Digest × List FriLayer)
  | 0, _, current, roots, layers => some (current, roots, layers)
  | rounds + 1, i, current, roots, layers =>
    if current.length ≤ cfg.finalLayerSize then some (current, roots, layers)
    else do
      let layerDomain ← friGenerateLayerDomain i cfg.domainSize
      let folded ← friFold current layerDomain (challengeOf sha256 roots)
      let foldedTree := friBuildMerkleTree sha256 folded
      let _ ← friGenerateLayerDomain (i + 1) cfg.domainSize
      foldLayers cfg rounds (i + 1) folded (roots ++ [foldedTree 0]) (layers ++ [⟨folded, foldedTree⟩])

def friCommit (codeword : List GF64Element) (cfg : FRIConfig) :
    Option (FRICommitment × List FriLayer) :=
  if codeword.length ≠ cfg.domainSize then none
  else if !powerOfTwo cfg.domainSize then none
  else if cfg.finalLayerSize ≤ 0 then none
  else do
    let _ ← friGenerateLayerDomain 0 cfg.domainSize
    let tree := friBuildMerkleTree sha256 codeword
    let maxLayers := gf64Log2 cfg.domainSize.toNat - gf64Log2 cfg.finalLayerSize.toNat
    let (current, roots, layers) ←
      foldLayers sha256 cfg maxLayers 0 codeword [tree 0] [⟨codeword, tree⟩]
    some ({ layerRoots := roots
            finalValues := current
            numLayers := (layers.length : Int) - 1
            domainSize := cfg.domainSize }, layers)

/-! ## Prove -/

/-- The partner of an index in a layer. -/
def siblingIdx (idx halfN : Int) : Int := if idx < halfN then idx + halfN else idx - halfN

/-- The layer proofs of one query, from the index `idx` on. -/
def proveQuery : List FriLayer → (idx : Int) → Option (List FriLayerProof)
  | [], _ => some []
  | layer :: rest, idx =>
    let n := layer.values.length
    let halfN := n / 2
    if halfN < 1 then some []
    else if idx < 0 ∨ idx ≥ n then none
    else
      let sibling := siblingIdx idx halfN
      (proveQuery rest (idx % halfN)).map fun proofs =>
        { value := layer.values.getD idx.toNat 0
          siblingValue := layer.values.getD sibling.toNat 0
          index := idx
          merkleProof := generateMerkleProof layer.merkleTree idx.toNat n
          siblingMerkleProof := generateMerkleProof layer.merkleTree sibling.toNat n } :: proofs

def friProve (layers : List FriLayer) (queryIndices : List Int) : Option FRIProof :=
  match layers with
  | [] => none
  | layer0 :: _ =>
    if queryIndices.any fun qIdx => qIdx < 0 || qIdx ≥ layer0.values.length then none
    else (queryIndices.mapM fun qIdx => (proveQuery layers.dropLast qIdx).map FRIQueryProof.mk).map
      FRIProof.mk

/-! ## Verify -/

/-- The loop over the layer proofs of a query in `FRIVerify`, at layer `i`.
The next layer proof must have the index and the value that this one folds
to; the last one is checked against the final values. -/
def verifyPath (commitment : FRICommitment) : (i : Nat) → List FriLayerProof → Bool
  | _, [] => true
  | i, lp :: rest =>
    let layerSize := commitment.domainSize / 2 ^ i
    let halfN := layerSize / 2
    if layerSize < 2 then false
    else if lp.index < 0 ∨ lp.index ≥ layerSize then false
    else match commitment.layerRoots[i]? with
      | none => false
      | some root =>
        if !friVerifyMerkleProof sha256 root lp.value lp.index layerSize lp.merkleProof then false
        else if !friVerifyMerkleProof sha256 root lp.siblingValue (siblingIdx lp.index halfN) layerSize
            lp.siblingMerkleProof then false
        else
          let j := lp.index % halfN
          match friGenerateLayerDomain i commitment.domainSize with
          | none => false
          | some domain =>
            if j ≥ domain.length then false
            else
              let (cEven, cOdd) := if lp.index < halfN then (lp.value, lp.siblingValue)
                else (lp.siblingValue, lp.value)
              let alpha := challengeOf sha256 (commitment.layerRoots.take (i + 1))
              match friFoldOne cEven cOdd (domain.getD j.toNat 0) alpha with
              | none => false
              | some expectedNext =>
                (match rest with
                  | nextLp :: _ => nextLp.index = j && expectedNext = nextLp.value
                  | [] => j < commitment.finalValues.length
                      && expectedNext = commitment.finalValues.getD j.toNat 0)
                && verifyPath commitment (i + 1) rest

/-- The checks of `FRIVerify` for one query. -/
def verifyQuery (commitment : FRICommitment) (qIdx : Int) (query : FRIQueryProof) : Bool :=
  query.layers.length = commitment.numLayers
    && 0 ≤ qIdx && qIdx < commitment.domainSize
    && (query.layers.head?).all (fun lp => lp.index = qIdx)
    && verifyPath sha256 commitment 0 query.layers

end Hash

/-- The value at `x` of the polynomial through the first `k` points, in
Lagrange's form. -/
def interpolate (values domain : List GF64Element) (k : Nat) (x : GF64Element) : Option GF64Element :=
  (List.range k).foldlM (fun sum i =>
    let others := (List.range k).filter (· ≠ i)
    let num := others.foldl (fun num j => gf64Mul num (gf64Sub x (domain.getD j 0))) 1
    let den := others.foldl (fun den j =>
      gf64Mul den (gf64Sub (domain.getD i 0) (domain.getD j 0))) 1
    (gf64Div num den).map fun li => gf64Add sum (gf64Mul (values.getD i 0) li)) 0

/-- The loop of `friVerifyFinalLowDegree`: the points from `k` on lie on the
polynomial through the first `k`. -/
def extrapolates (values domain : List GF64Element) (k : Nat) : Bool :=
  ((List.range values.length).drop k).all fun m =>
    interpolate values domain k (domain.getD m 0) = some (values.getD m 0)

def friVerifyFinalLowDegree (finalValues : List GF64Element) (numLayers : Nat) (domainSize : Int) :
    Bool :=
  let n := finalValues.length
  if n < 2 then true
  else match friGenerateLayerDomain numLayers domainSize with
    | none => false
    | some domain =>
      if domain.length < n then false
      else if n / 4 < 1 then true
      else extrapolates finalValues domain (n / 4)

section Hash

variable (sha256 : Bytes → Digest)

def friVerify (commitment : FRICommitment) (proof : FRIProof) (queryIndices : List Int)
    (cfg : FRIConfig) : Bool :=
  if proof.queries.length ≠ queryIndices.length then false
  else if cfg.numQueries ≤ 0 then false
  else if queryIndices.length < cfg.numQueries then false
  else if commitment.numLayers ≤ 0 then false
  else if commitment.layerRoots.length < commitment.numLayers + 1 then false
  else if !powerOfTwo commitment.domainSize then false
  else if commitment.domainSize > maxFRIDADomainSize then false
  else if commitment.finalValues.length = 0 then false
  else ((queryIndices.zip proof.queries).all fun e => verifyQuery sha256 commitment e.1 e.2)
    && friVerifyFinalLowDegree commitment.finalValues commitment.numLayers.toNat commitment.domainSize

/-! ## Blobs -/

/-- `FRIBlobToFieldElements`: eight bytes to an element, the last ones padded
with zeros. -/
def friBlobToFieldElements (data : Bytes) : List GF64Element :=
  (List.range ((data.length + 7) / 8)).map fun i => gf64FromBytes ((data.drop (8 * i)).take 8)

def friCommitBlob (blob : Bytes) (cfg : FRIConfig) :
    Option (FRICommitment × List GF64Element × List FriLayer) := do
  let elements := friBlobToFieldElements blob
  let polyDegree := (cfg.domainSize.tdiv cfg.codeRate).toNat
  let elements := (elements ++ List.replicate (polyDegree - elements.length) 0).take polyDegree
  let codeword ← gf64ReedSolomonExtend elements cfg.domainSize
  let (commitment, layers) ← friCommit sha256 codeword cfg
  some (commitment, codeword, layers)

def friGenerateQueryIndices (commitment : FRICommitment) (numQueries : Int) : Option (List Int) :=
  let data := commitment.layerRoots.flatMap (fun root => root.toList) ++
    commitment.finalValues.flatMap gf64ToBytes
  let modulus := (commitment.domainSize % 2 ^ 32).toNat
  if numQueries < 0 then none
  else if modulus = 0 ∧ 0 < numQueries then none
  else some ((List.range numQueries.toNat).map fun i =>
    let hash := sha256 (data ++ [UInt8.ofNat i, UInt8.ofNat (i / 256)])
    ((ofBigEndian (hash.toList.take 4) % modulus : Nat) : Int))

/-! ## Cell openings -/

structure FRIOpeningProof where
  cellValue : GF64Element
  cellIndex : Int
  merkleProof : List Bytes
  friProof : Option FRIProof
  queryIndices : List Int

def friGenerateOpeningProof (commitment : FRICommitment) (codeword : List GF64Element)
    (layers : List FriLayer) (cellIndex : Int) (cfg : FRIConfig) : Option FRIOpeningProof :=
  if cellIndex < 0 ∨ cellIndex ≥ codeword.length then none
  else match layers with
    | [] => none
    | layer0 :: _ =>
      (friGenerateQueryIndices sha256 commitment cfg.numQueries).map fun indices =>
        let queryIndices := indices.set 0 cellIndex
        { cellValue := codeword.getD cellIndex.toNat 0
          cellIndex := cellIndex
          merkleProof := generateMerkleProof layer0.merkleTree cellIndex.toNat codeword.length
          friProof := friProve layers queryIndices
          queryIndices := queryIndices }

def verifyQueryIndicesMatch (proverIndices expectedIndices : List Int) (cellIndex : Int) : Bool :=
  if expectedIndices.length = 0 ∨ proverIndices.length < expectedIndices.length then false
  else if proverIndices.head? ≠ some cellIndex then false
  else if proverIndices.tail.any (· < 0) then false
  else expectedIndices.tail.all fun idx => proverIndices.tail.contains idx

def friVerifyOpeningProof (commitment : FRICommitment) (proof : FRIOpeningProof) (cfg : FRIConfig) :
    Bool :=
  match proof.friProof with
  | none => false
  | some friProof =>
    if proof.cellIndex < 0 ∨ proof.cellIndex ≥ commitment.domainSize then false
    else if proof.queryIndices.length = 0 then false
    else if cfg.numQueries ≤ 0 then false
    else if proof.queryIndices.length < cfg.numQueries then false
    else match commitment.layerRoots with
      | [] => false
      | root0 :: _ =>
        if commitment.domainSize ≤ 0 then false
        else match friGenerateQueryIndices sha256 commitment cfg.numQueries with
          | none => false
          | some expectedIndices =>
            if !verifyQueryIndicesMatch proof.queryIndices expectedIndices proof.cellIndex then false
            else if !friVerifyMerkleProof sha256 root0 proof.cellValue proof.cellIndex
                commitment.domainSize proof.merkleProof then false
            else if !friVerify sha256 commitment friProof proof.queryIndices cfg then false
            else
              match (proof.queryIndices.zip friProof.queries).find? fun e => e.1 = proof.cellIndex with
              | none => false
              | some e => (e.2.layers.head?).any fun lp => lp.value = proof.cellValue

/-! ## The data availability layer -/

structure FRIDACommitment where
  layerRoots : List Digest
  finalValues : List GF64Element
  numLayers : Int
  domainSize : Int
  codeRate : Int
  numQueries : Int
  finalLayerSize : Int
deriving DecidableEq

/-- The commitment as the opening proofs take it. -/
def FRIDACommitment.toFRICommitment (c : FRIDACommitment) : FRICommitment :=
  ⟨c.layerRoots, c.finalValues, c.numLayers, c.domainSize⟩

def FRIDACommitment.toFRIConfig (c : FRIDACommitment) : FRIConfig :=
  ⟨c.domainSize, c.codeRate, c.numQueries, c.finalLayerSize⟩

structure FRIDABlobData where
  commitment : FRIDACommitment
  codeword : List GF64Element
  layers : List FriLayer

inductive FRIDAError where
  | emptyBlob
  | invalidConfig
  | domainNotPowerOfTwo
  | commitFailed
  | cellIndexOutOfRange
  | noLayers
  | openingFailed
  | codewordTooShort
deriving DecidableEq, Repr

def fridaCommitBlob (blob : Bytes) (cfg : FRIConfig) : Except FRIDAError FRIDABlobData :=
  if blob.length = 0 then .error .emptyBlob
  else if cfg.domainSize ≤ 0 ∨ cfg.codeRate ≤ 0 then .error .invalidConfig
  else if !powerOfTwo cfg.domainSize then .error .domainNotPowerOfTwo
  else match friCommitBlob sha256 blob cfg with
    | none => .error .commitFailed
    | some (commitment, codeword, layers) => .ok {
        commitment := {
          layerRoots := commitment.layerRoots
          finalValues := commitment.finalValues
          numLayers := commitment.numLayers
          domainSize := commitment.domainSize
          codeRate := cfg.codeRate
          numQueries := cfg.numQueries
          finalLayerSize := cfg.finalLayerSize }
        codeword := codeword
        layers := layers }

def fridaGenerateCellProof (blobData : FRIDABlobData) (cellIndex : Int) :
    Except FRIDAError FRIOpeningProof :=
  if cellIndex < 0 ∨ cellIndex ≥ blobData.commitment.domainSize then .error .cellIndexOutOfRange
  else if blobData.layers.length = 0 then .error .noLayers
  else match friGenerateOpeningProof sha256 blobData.commitment.toFRICommitment blobData.codeword
      blobData.layers cellIndex blobData.commitment.toFRIConfig with
    | none => .error .openingFailed
    | some opening => .ok opening

def fridaGetCellValue (blobData : FRIDABlobData) (cellIndex : Int) : Except FRIDAError Cell :=
  if cellIndex < 0 ∨ cellIndex ≥ blobData.commitment.domainSize then .error .cellIndexOutOfRange
  else if cellIndex ≥ blobData.codeword.length then .error .codewordTooShort
  else .ok (copyInto cellSize (gf64ToBytes (blobData.codeword.getD cellIndex.toNat 0)))

def fridaVerifyCell (cell : Cell) (commitment : FRIDACommitment) (proof : FRIOpeningProof)
    (cellIndex : Int) : Bool :=
  if cellIndex < 0 ∨ cellIndex ≥ commitment.domainSize then false
  else if !powerOfTwo commitment.domainSize then false
  else if commitment.domainSize > maxFRIDADomainSize then false
  else if commitment.numLayers ≤ 0 then false
  else if commitment.layerRoots.length = 0 then false
  else if commitment.finalValues.length = 0 then false
  else if commitment.codeRate ≤ 0 then false
  else if commitment.finalLayerSize ≤ 0 then false
  else if commitment.numQueries ≤ 0 then false
  else if commitment.numQueries > maxFRIDANumQueries then false
  else if commitment.finalLayerSize < 2 then false
  else if proof.cellIndex ≠ cellIndex then false
  else if gf64FromBytes (cell.toList.take 8) ≠ proof.cellValue then false
  else friVerifyOpeningProof sha256 commitment.toFRICommitment proof commitment.toFRIConfig

end Hash

end Qau.Fri
