import Qau.Bytes
import Qau.Gf16

/-!
# The erasure code of the data-availability layer

A translation of `erasure_code.go`: blobs of `n` cells are extended to
`2 * n` cells (`ExtendBlob1D`), recovered from any `n` of them
(`RecoverBlob1D`), and several blobs are extended across columns and
recovered from the matrix (`ExtendBlobs2D`, `RecoverBlobs2D`). The source
fixes `n` to `cellsPerBlob`; here it is a parameter.

A cell is 32 bytes, read and written as 16 big-endian words of GF(2^16).
Loops over a fixed-size array are folds over `List.finRange`; an error
that the source drops (`w, _ := gf16Div(..)`) leaves the zero word, and an
index beyond an array is an explicit error.

The functions over GF(2^8) in the same file (`gfMul`, `solveVandermonde`)
are called by tests only and are left out.
-/

namespace Qau

def cellsPerBlob : Nat := 4096

def cellSize : Nat := 32

def maxBlobColumns : Nat := 6

def maxBlobColumnsExt : Nat := maxBlobColumns * 2

/-! ## Cells -/

abbrev Cell := ByteArr cellSize

/-- The positions of the 16-bit elements of a cell. -/
abbrev ElemIdx := Fin (cellSize / 2)

/-- `binary.BigEndian.Uint16(cell[2*k:])`. -/
def getUint16 (c : Cell) (k : ElemIdx) : UInt16 :=
  (c.get ⟨2 * k, by have := k.2; unfold cellSize at *; omega⟩).toUInt16 <<< 8 |||
    (c.get ⟨2 * k + 1, by have := k.2; unfold cellSize at *; omega⟩).toUInt16

/-- `binary.BigEndian.PutUint16(cell[2*k:], v)`. -/
def putUint16 (c : Cell) (k : ElemIdx) (v : UInt16) : Cell :=
  (c.set ⟨2 * k, by have := k.2; unfold cellSize at *; omega⟩ (v >>> 8).toUInt8).set
    ⟨2 * k + 1, by have := k.2; unfold cellSize at *; omega⟩ v.toUInt8

/-- The inner loop of every encoder: add `w` times the cell `src` to `cell`,
element by element. -/
def addScaled (cell src : Cell) (w : UInt16) : Cell :=
  (List.finRange (cellSize / 2)).foldl
    (fun c k => putUint16 c k (getUint16 c k ^^^ gf16Mul (getUint16 src k) w)) cell

/-! ## Lagrange weights -/

/-- The evaluation point of position `k`. -/
def evalPoint (k : Nat) : UInt16 := UInt16.ofNat (k + 1)

section
variable {n : Nat} (xs : Fin n → UInt16)

/-- `denom[j]`: the product of the differences of `xs j` to the other points. -/
def lagrangeDenom (j : Fin n) : UInt16 :=
  (List.finRange n).foldl (fun d i => if i ≠ j then gf16Mul d (xs j ^^^ xs i) else d) 1

/-- `num`: the product of the differences of `y` to all points. -/
def lagrangeNum (y : UInt16) : UInt16 :=
  (List.finRange n).foldl (fun num i => gf16Mul num (y ^^^ xs i)) 1

/-- `w` as the encoders compute it: they drop the errors of the divisions. -/
def lagrangeWeight (y : UInt16) (j : Fin n) : UInt16 :=
  let w := (gf16Div (lagrangeNum xs y) (y ^^^ xs j)).toOption.getD 0
  (gf16Div w (lagrangeDenom xs j)).toOption.getD 0

/-- The value at `y` of the polynomial through `cells` at `xs`. -/
def parityCell (cells : Fin n → Cell) (y : UInt16) : Cell :=
  (List.finRange n).foldl (fun parity j => addScaled parity (cells j) (lagrangeWeight xs y j))
    (zeroArr cellSize)

end

/-! ## One blob -/

def extendBlob1D {n : Nat} (cells : Fin n → Cell) : Fin (2 * n) → Cell := fun i =>
  if h : i.val < n then cells ⟨i, h⟩
  else parityCell (fun j => evalPoint j) cells (evalPoint i)

inductive RecoverError where
  | insufficientCells (need have_ : Nat)
  | recoveryFailed (cell : Nat) (err : Gf16Error)
  | invalidOriginalCount (count : Int)
  | insufficientColumns (need have_ : Nat)
  | insufficientRows (need have_ : Nat)
  | recoverBlob (col : Nat) (err : RecoverError)
  /-- A panic of the source. -/
  | indexOutOfRange
  deriving DecidableEq, Repr

/-- The indices the mask marks as available, in order. -/
def maskIndices (mask : List Bool) : List Nat :=
  (List.range mask.length).filter fun i => mask.getD i false

/-- The loop over the available points for one missing cell: it stops at a
point that coincides with `y`. -/
def recoverCell {n : Nat} (xs : Fin n → UInt16) (availCells : Fin n → Cell) (j : Nat) (y : UInt16) :
    List (Fin n) → Cell → Except RecoverError Cell
  | [], cell => .ok cell
  | i :: rest, cell =>
    let diff := y ^^^ xs i
    if diff = 0 then .ok (availCells i)
    else do
      let w ← (gf16Div (lagrangeNum xs y) diff).mapError (.recoveryFailed j)
      let w ← (gf16Div w (lagrangeDenom xs i)).mapError (.recoveryFailed j)
      recoverCell xs availCells j y rest (addScaled cell (availCells i) w)

/-- Fill an array entry by entry; the first error ends the loop. -/
def collect {ε α : Type} : {n : Nat} → (Fin n → Except ε α) → Except ε (Fin n → α)
  | 0, _ => .ok Fin.elim0
  | _ + 1, f => do
      let a ← f 0
      let rest ← collect fun i => f i.succ
      return Fin.cons a rest

def recoverBlob1D {n : Nat} (extended : Fin (2 * n) → Cell) (availableMask : List Bool) :
    Except RecoverError (Fin n → Cell) :=
  let availableCount := availableMask.count true
  let allOriginalAvailable := (availableMask.take n).all id
  if availableCount < n then .error (.insufficientCells n availableCount)
  else if allOriginalAvailable then
    .ok fun j => extended ⟨j, by have := j.2; omega⟩
  else do
    let availableIndices := (maskIndices availableMask).take n
    let xs : Fin n → UInt16 := fun i => evalPoint (availableIndices.getD i 0)
    let availCells ← collect fun i : Fin n =>
      if h : availableIndices.getD i 0 < 2 * n then .ok (extended ⟨_, h⟩)
      else .error .indexOutOfRange
    collect fun j : Fin n =>
      if availableMask.getD j false then .ok (extended ⟨j, by have := j.2; omega⟩)
      else recoverCell xs availCells j (evalPoint j) (List.finRange n) (zeroArr cellSize)

/-! ## Several blobs -/

abbrev Blob (n : Nat) := ByteArr (n * cellSize)

def blobToCells {n : Nat} (blob : Blob n) : Fin n → Cell := fun i =>
  copyInto cellSize (blob.toList.drop (i * cellSize))

def cellsToBlob {n : Nat} (cells : Fin n → Cell) : Blob n :=
  copyInto (n * cellSize) ((List.ofFn cells).flatMap List.Vector.toList)

abbrev BlobMatrixExtended (n : Nat) := Fin maxBlobColumnsExt → Fin (2 * n) → Cell

inductive ExtendError where
  | invalidBlobCount (count : Nat)
  deriving DecidableEq, Repr

def extendBlobs2D {n : Nat} (blobs : List (Blob n)) : Except ExtendError (BlobMatrixExtended n) :=
  let k := blobs.length
  if k = 0 ∨ k > maxBlobColumns then .error (.invalidBlobCount k)
  else
    let column : Fin k → Fin (2 * n) → Cell := fun c => extendBlob1D (blobToCells (blobs.get c))
    .ok fun col row =>
      if h : col.val < k then column ⟨col, h⟩ row
      else if h1 : k = 1 then column ⟨0, by omega⟩ row
      else parityCell (fun j => evalPoint j) (fun j => column j row) (evalPoint col)

def recoverBlobs2D {n : Nat} (matrix : BlobMatrixExtended n) (colMask rowMask : List Bool)
    (originalCount : Int) : Except RecoverError (List (Blob n)) :=
  if h : originalCount ≤ 0 ∨ originalCount > maxBlobColumns then
    .error (.invalidOriginalCount originalCount)
  else
    let k := originalCount.toNat
    let availableCols := colMask.count true
    let availableRows := rowMask.count true
    if availableCols < k then .error (.insufficientColumns k availableCols)
    else if availableRows < n then .error (.insufficientRows n availableRows)
    else
      (List.finRange k).mapM fun col : Fin k => do
        let extended := matrix ⟨col, by have := col.2; unfold maxBlobColumnsExt; omega⟩
        let cells ← (recoverBlob1D extended rowMask).mapError (.recoverBlob col)
        return cellsToBlob cells

end Qau
