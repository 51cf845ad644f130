import Qau.ErasureCode

/-!
# Recovery from any half

Element by element, the cells of an extended blob are the values of one
polynomial of degree below `n` (`codeword`): the original cells by
construction, the parity cells because the encoder's weighted sum is
Lagrange interpolation (`elem_parityCell`). A polynomial of that
degree is determined by any `n` of its values, so the decoder's weighted
sum over the available cells gives the missing ones back.

Main results:
* `recoverBlob1D_extendBlob1D`: any half of the cells is enough;
* `recoverBlobs2D_iff`: across columns, exactly the masks that have every
  original column are enough, since the decoder never reads a parity column.
-/

namespace Qau

open Function Finset Lagrange

variable {c d : Cell} {i j : Nat} {mask : List Bool} {y : UInt16} {n : Nat}

/-! ## Elements of a cell -/

theorem toNat_joinBytes (hi lo : UInt8) :
    (hi.toUInt16 <<< 8 ||| lo.toUInt16).toNat = hi.toNat * 256 + lo.toNat := by
  have hlo := lo.toNat_lt
  have hhi := hi.toNat_lt
  show hi.toNat <<< 8 % 2 ^ 16 ||| lo.toNat = _
  rw [Nat.mod_eq_of_lt (by rw [Nat.shiftLeft_eq]; omega), ← Nat.shiftLeft_add_eq_or_of_lt hlo,
    Nat.shiftLeft_eq]

theorem toNat_highByte (v : UInt16) : ((v >>> 8).toUInt8).toNat = v.toNat / 256 := by
  have hv := v.toNat_lt
  simp
  omega

theorem toNat_lowByte (v : UInt16) : v.toUInt8.toNat = v.toNat % 256 := UInt16.toNat_toUInt8 v

theorem getUint16_putUint16_self (c : Cell) (k : ElemIdx) (v : UInt16) :
    getUint16 (putUint16 c k v) k = v := by
  refine UInt16.toNat_inj.1 ?_
  rw [getUint16, toNat_joinBytes, putUint16, List.Vector.get_set_of_ne, List.Vector.get_set_same,
    List.Vector.get_set_same, toNat_highByte, toNat_lowByte]
  · omega
  · simp

theorem getUint16_putUint16_of_ne (c : Cell) {k l : ElemIdx} (h : k ≠ l) (v : UInt16) :
    getUint16 (putUint16 c k v) l = getUint16 c l := by
  have h' : k.val ≠ l.val := fun heq => h (Fin.ext heq)
  rw [getUint16, getUint16, putUint16]
  repeat rw [List.Vector.get_set_of_ne (by simp only [ne_eq, Fin.mk.injEq]; omega)]

theorem cell_ext (h : ∀ k, getUint16 c k = getUint16 d k) : c = d := by
  refine List.Vector.ext fun m => ?_
  have hk := congrArg UInt16.toNat (h ⟨m.val / 2, by unfold cellSize; omega⟩)
  rw [getUint16, getUint16, toNat_joinBytes, toNat_joinBytes] at hk
  have hlt := fun b : UInt8 => b.toNat_lt
  refine UInt8.toNat_inj.1 ?_
  rcases Nat.mod_two_eq_zero_or_one m.val with heven | hodd
  · grind
  · grind

@[simp] theorem getUint16_zero (k : ElemIdx) : getUint16 (zeroArr cellSize) k = 0 := by
  simp [getUint16, zeroArr]

theorem getUint16_addScaled (cell src : Cell) (w : UInt16) (k : ElemIdx) :
    getUint16 (addScaled cell src w) k = getUint16 cell k ^^^ gf16Mul (getUint16 src k) w := by
  have hloop : ∀ (l : List ElemIdx), l.Nodup → ∀ c : Cell, getUint16 (l.foldl
      (fun c k => putUint16 c k (getUint16 c k ^^^ gf16Mul (getUint16 src k) w)) c) k =
      if k ∈ l then getUint16 c k ^^^ gf16Mul (getUint16 src k) w else getUint16 c k := by
    intro l
    induction l with
    | nil => simp
    | cons i l ih =>
      intro hnd c
      rw [List.foldl_cons, ih hnd.of_cons]
      by_cases hk : k = i
      · have hnot : k ∉ l := hk ▸ (List.nodup_cons.1 hnd).1
        rw [if_neg hnot, if_pos (by simp [hk]), hk, getUint16_putUint16_self]
      · rw [getUint16_putUint16_of_ne c (Ne.symm hk)]
        simp [hk]
  rw [addScaled, hloop _ (List.nodup_finRange _), if_pos (List.mem_finRange k)]

/-! ## The weighted sums are interpolation -/

/-- An element of a cell, in the field. -/
def elem (c : Cell) (k : ElemIdx) : Gf16 := ⟨getUint16 c k⟩

theorem cell_ext_elem (h : ∀ k, elem c k = elem d k) : c = d :=
  cell_ext fun k => congrArg Gf16.word (h k)

theorem elem_addScaled (cell src : Cell) (w : UInt16) (k : ElemIdx) :
    elem (addScaled cell src w) k = elem cell k + elem src k * ⟨w⟩ := by
  rw [elem, getUint16_addScaled, mk_xor, mk_gf16Mul]
  rfl

section
variable {n : Nat} {xs : Fin n → UInt16}

theorem mk_lagrangeNum (y : UInt16) :
    (⟨lagrangeNum xs y⟩ : Gf16) = ∏ i, ((⟨y⟩ : Gf16) - ⟨xs i⟩) := by
  have hloop : ∀ (l : List (Fin n)) (num : UInt16),
      (⟨l.foldl (fun num i => gf16Mul num (y ^^^ xs i)) num⟩ : Gf16) =
        ⟨num⟩ * (l.map fun i => (⟨y⟩ : Gf16) - ⟨xs i⟩).prod := by
    intro l
    induction l with
    | nil => simp
    | cons i l ih =>
      intro num
      rw [List.foldl_cons, ih, mk_gf16Mul, mk_xor_eq_sub, List.map_cons, List.prod_cons, mul_assoc]
  rw [lagrangeNum, hloop]
  exact one_mul _

theorem mk_lagrangeDenom (j : Fin n) :
    (⟨lagrangeDenom xs j⟩ : Gf16) = ∏ i ∈ univ.erase j, ((⟨xs j⟩ : Gf16) - ⟨xs i⟩) := by
  have hloop : ∀ (l : List (Fin n)) (d : UInt16),
      (⟨l.foldl (fun d i => if i ≠ j then gf16Mul d (xs j ^^^ xs i) else d) d⟩ : Gf16) =
        ⟨d⟩ * (l.map fun i => if i ≠ j then (⟨xs j⟩ : Gf16) - ⟨xs i⟩ else 1).prod := by
    intro l
    induction l with
    | nil => simp
    | cons i l ih =>
      intro d
      rw [List.foldl_cons, ih, List.map_cons, List.prod_cons, ← mul_assoc]
      split
      · rw [mk_gf16Mul, mk_xor_eq_sub]
      · rw [mul_one]
  rw [lagrangeDenom, hloop, ← filter_ne', prod_filter]
  exact one_mul _

theorem lagrangeDenom_ne_zero (hinj : Injective xs) (j : Fin n) : lagrangeDenom xs j ≠ 0 := by
  rw [← mk_ne_zero, mk_lagrangeDenom, prod_ne_zero_iff]
  intro i hi
  rw [← mk_xor_eq_sub, mk_ne_zero, ne_eq, UInt16.xor_eq_zero_iff]
  exact fun h => ne_of_mem_erase hi (hinj h).symm

/-- Both divisions of a weight succeed at a point that is none of the nodes. -/
theorem gf16Div_weight (hinj : Injective xs) {j : Fin n} (hy : y ^^^ xs j ≠ 0) :
    ∃ w w', gf16Div (lagrangeNum xs y) (y ^^^ xs j) = .ok w ∧
      gf16Div w (lagrangeDenom xs j) = .ok w' ∧
      (⟨w'⟩ : Gf16) = (∏ i, ((⟨y⟩ : Gf16) - ⟨xs i⟩)) / (⟨y⟩ - ⟨xs j⟩) /
        ∏ i ∈ univ.erase j, ((⟨xs j⟩ : Gf16) - ⟨xs i⟩) := by
  obtain ⟨w, hw, hweq⟩ := gf16Div_eq (a := lagrangeNum xs y) hy
  obtain ⟨w', hw', hweq'⟩ := gf16Div_eq (a := w) (lagrangeDenom_ne_zero hinj j)
  exact ⟨w, w', hw, hw', by rw [hweq', hweq, mk_lagrangeNum, mk_lagrangeDenom, mk_xor_eq_sub]⟩

/-- The sum of the values with the weights of `gf16Div_weight` is the value of
the interpolating polynomial. -/
theorem sum_weight_eq_eval {x v : Fin n → Gf16} {y : Gf16} (hy : ∀ i, y ≠ x i) :
    ∑ j, v j * ((∏ i, (y - x i)) / (y - x j) / ∏ i ∈ univ.erase j, (x j - x i)) =
      (interpolate univ x v).eval y := by
  rw [eval_interpolate_not_at_node v fun i _ => hy i, eval_nodal, mul_sum]
  refine sum_congr rfl fun j _ => ?_
  rw [nodalWeight, prod_inv_distrib]
  ring

theorem mk_lagrangeWeight (hinj : Injective xs) {j : Fin n} (hy : y ^^^ xs j ≠ 0) :
    (⟨lagrangeWeight xs y j⟩ : Gf16) =
      (∏ i, ((⟨y⟩ : Gf16) - ⟨xs i⟩)) / (⟨y⟩ - ⟨xs j⟩) /
        ∏ i ∈ univ.erase j, ((⟨xs j⟩ : Gf16) - ⟨xs i⟩) := by
  obtain ⟨w, w', hw, hw', hweq⟩ := gf16Div_weight hinj hy
  rw [lagrangeWeight, hw]
  simp only [Except.toOption, Option.getD_some]
  rw [hw']
  exact hweq

/-- The cell the encoder computes for `y` holds the values at `y` of the
polynomials through the elements of `cells`. -/
theorem elem_parityCell (hinj : Injective xs) (cells : Fin n → Cell) (hy : ∀ i, y ^^^ xs i ≠ 0)
    (k : ElemIdx) : elem (parityCell xs cells y) k =
      (interpolate univ (fun j => ⟨xs j⟩) fun j => elem (cells j) k).eval ⟨y⟩ := by
  have hloop : ∀ (l : List (Fin n)) (c : Cell),
      elem (l.foldl (fun parity j => addScaled parity (cells j) (lagrangeWeight xs y j)) c) k =
        elem c k + (l.map fun j => elem (cells j) k * ⟨lagrangeWeight xs y j⟩).sum := by
    intro l
    induction l with
    | nil => simp
    | cons j l ih =>
      intro c
      rw [List.foldl_cons, ih, elem_addScaled, List.map_cons, List.sum_cons, add_assoc]
  have hzero : elem (zeroArr cellSize) k = 0 := Gf16.ext (getUint16_zero k)
  have hne : ∀ i, (⟨y⟩ : Gf16) ≠ ⟨xs i⟩ := by
    intro i h
    rw [← sub_eq_zero] at h
    exact mk_ne_zero.2 (hy i) h
  rw [parityCell, hloop, hzero, zero_add, ← Fin.sum_univ_def, ← sum_weight_eq_eval hne]
  exact sum_congr rfl fun j _ => by rw [mk_lagrangeWeight hinj (hy j)]

/-- At a point that is none of the available ones the decoder's loop runs to its
end and computes what the encoder would. -/
theorem recoverCell_eq (hinj : Injective xs) (cells : Fin n → Cell) (j : Nat)
    (hy : ∀ i, y ^^^ xs i ≠ 0) :
    recoverCell xs cells j y (List.finRange n) (zeroArr cellSize) = .ok (parityCell xs cells y) := by
  rw [parityCell]
  generalize zeroArr cellSize = c
  generalize List.finRange n = l
  induction l generalizing c with
  | nil => rfl
  | cons i l ih =>
    obtain ⟨w, w', hw, hw', -⟩ := gf16Div_weight hinj (hy i)
    have hweight : lagrangeWeight xs y i = w' := by
      simp [lagrangeWeight, hw, hw', Except.toOption]
    rw [recoverCell, if_neg (hy i), List.foldl_cons, ← ih, hweight, hw]
    simp [Except.mapError, bind, Except.bind, hw']

end

/-! ## Codewords -/

theorem evalPoint_inj (hi : i < gf16Order) (hj : j < gf16Order) (h : evalPoint i = evalPoint j) :
    i = j := by
  unfold gf16Order at hi hj
  have h' := congrArg UInt16.toNat h
  rw [evalPoint, evalPoint, UInt16.toNat_ofNat_of_lt' (by simp [UInt16.size]; omega),
    UInt16.toNat_ofNat_of_lt' (by simp [UInt16.size]; omega)] at h'
  omega

theorem evalPoint_xor_ne_zero (hi : i < gf16Order) (hj : j < gf16Order) (h : i ≠ j) :
    evalPoint i ^^^ evalPoint j ≠ 0 := by
  rw [ne_eq, UInt16.xor_eq_zero_iff]
  exact fun heq => h (evalPoint_inj hi hj heq)

section
variable {n : Nat} (cells : Fin n → Cell)

/-- The polynomial through the `k`-th elements of the original cells. -/
noncomputable def codeword (k : ElemIdx) : Polynomial Gf16 :=
  interpolate univ (fun j : Fin n => ⟨evalPoint j⟩) fun j => elem (cells j) k

variable (hn : 2 * n ≤ gf16Order)
include hn

theorem evalPoint_injective : Injective fun j : Fin n => evalPoint j := fun i j h =>
  Fin.ext (evalPoint_inj (by omega) (by omega) h)

theorem mk_evalPoint_injOn :
    Set.InjOn (fun j : Fin n => (⟨evalPoint j⟩ : Gf16)) (univ : Finset (Fin n)) :=
  fun _ _ _ _ h => evalPoint_injective hn (congrArg Gf16.word h)

theorem degree_codeword_lt (k : ElemIdx) : (codeword cells k).degree < n := by
  have h := degree_interpolate_lt (fun j => elem (cells j) k) (mk_evalPoint_injOn hn)
  rwa [card_univ, Fintype.card_fin] at h

theorem eval_codeword_original (k : ElemIdx) (j : Fin n) :
    (codeword cells k).eval ⟨evalPoint j⟩ = elem (cells j) k :=
  eval_interpolate_at_node _ (mk_evalPoint_injOn hn) (mem_univ j)

/-- Every cell of the extension, original or parity, is a value of the same
polynomials. -/
theorem elem_extendBlob1D (k : ElemIdx) (i : Fin (2 * n)) :
    elem (extendBlob1D cells i) k = (codeword cells k).eval ⟨evalPoint i⟩ := by
  rw [extendBlob1D]
  split
  case isTrue h => exact (eval_codeword_original cells hn k ⟨i, h⟩).symm
  case isFalse h =>
    exact elem_parityCell (evalPoint_injective hn) cells
      (fun j => evalPoint_xor_ne_zero (by omega) (by omega) (by omega)) k

/-- Any `n` cells of the extension determine the polynomials: interpolating
them at the point of an original cell gives that cell. -/
theorem parityCell_extendBlob1D {idx : Fin n → Fin (2 * n)} (hidx : Injective idx)
    {j : Fin n} (hj : ∀ i, (idx i).val ≠ j.val) :
    parityCell (fun i => evalPoint (idx i)) (fun i => extendBlob1D cells (idx i)) (evalPoint j) =
      cells j := by
  have hinj : Injective fun i => evalPoint (idx i) := fun i i' h =>
    hidx (Fin.ext (evalPoint_inj (by omega) (by omega) h))
  refine cell_ext_elem fun k => ?_
  rw [elem_parityCell hinj _ fun i => evalPoint_xor_ne_zero (by omega) (by omega) (hj i).symm]
  have hpoly := eq_interpolate_of_eval_eq (s := univ) (f := codeword cells k)
    (v := fun i => (⟨evalPoint (idx i)⟩ : Gf16)) (fun i => elem (extendBlob1D cells (idx i)) k)
    (fun _ _ _ _ h => hinj (congrArg Gf16.word h))
    (by rw [card_univ, Fintype.card_fin]; exact degree_codeword_lt cells hn k)
    (fun i _ => (elem_extendBlob1D cells hn k (idx i)).symm)
  rw [← hpoly]
  exact eval_codeword_original cells hn k j

end

/-! ## Collecting the available cells -/

theorem collect_eq_ok {ε α : Type} {f : Fin n → Except ε α} {g : Fin n → α}
    (h : ∀ i, f i = .ok (g i)) : collect f = .ok g := by
  induction n with
  | zero => exact congrArg Except.ok (Subsingleton.elim _ _)
  | succ n ih =>
    rw [collect, h 0, ih fun i => h i.succ]
    exact congrArg Except.ok (Fin.cons_self_tail g)

theorem mem_maskIndices : i ∈ maskIndices mask ↔ i < mask.length ∧ mask.getD i false = true := by
  simp [maskIndices]

theorem maskIndices_nodup (mask : List Bool) : (maskIndices mask).Nodup :=
  List.nodup_range.filter _

theorem maskIndices_append_singleton (mask : List Bool) (b : Bool) :
    maskIndices (mask ++ [b]) = maskIndices mask ++ if b then [mask.length] else [] := by
  rw [maskIndices, List.length_append, List.length_singleton, List.range_succ, List.filter_append]
  congr 1
  · refine List.filter_congr fun i hi => ?_
    rw [List.getD_append _ _ _ _ (List.mem_range.1 hi)]
  · cases b <;> simp

theorem length_maskIndices (mask : List Bool) : (maskIndices mask).length = mask.count true := by
  induction mask using List.reverseRecOn with
  | nil => rfl
  | append_singleton mask b ih =>
    rw [maskIndices_append_singleton, List.length_append, ih]
    cases b <;> simp

/-- The indices the decoder collects: `n` different available positions. -/
theorem exists_available {m : Nat} (hlen : mask.length = m) (hcount : n ≤ mask.count true) :
    ∃ idx : Fin n → Fin m, Injective idx ∧
      ∀ i : Fin n, ((maskIndices mask).take n).getD i 0 = idx i ∧ mask.getD (idx i) false = true := by
  have htake : ((maskIndices mask).take n).length = n := by
    rw [List.length_take, length_maskIndices, min_eq_left hcount]
  have hget : ∀ i : Fin n, ∃ p : Fin m,
      ((maskIndices mask).take n).getD i 0 = p ∧ mask.getD p false = true := by
    intro i
    have hi : i.val < ((maskIndices mask).take n).length := by omega
    have hmem := mem_maskIndices.1 (List.mem_of_mem_take (List.getElem_mem hi))
    rw [List.getD_eq_getElem _ _ hi]
    exact ⟨⟨_, by omega⟩, rfl, hmem.2⟩
  choose idx hidx using hget
  refine ⟨idx, fun i i' h => ?_, hidx⟩
  have hnd := (maskIndices_nodup mask).sublist (List.take_sublist n _)
  have hi : i.val < ((maskIndices mask).take n).length := by omega
  have hi' : i'.val < ((maskIndices mask).take n).length := by omega
  have heq : ((maskIndices mask).take n)[i.val] = ((maskIndices mask).take n)[i'.val] := by
    rw [← List.getD_eq_getElem _ 0 hi, ← List.getD_eq_getElem _ 0 hi', (hidx i).1, (hidx i').1, h]
  exact Fin.ext (hnd.getElem_inj_iff.1 heq)

/-! ## One blob -/

theorem recoverBlob1D_of_points (hpoints : 2 * n ≤ gf16Order) {cells : Fin n → Cell}
    {availableMask : List Bool} (hlen : availableMask.length = 2 * n)
    (hcount : n ≤ availableMask.count true) {received : Fin (2 * n) → Cell}
    (hreceived : ∀ i : Fin (2 * n), availableMask.getD i false = true →
      received i = extendBlob1D cells i) : recoverBlob1D received availableMask = .ok cells := by
  have horiginal : ∀ j : Fin n, availableMask.getD j false = true →
      received ⟨j, by omega⟩ = cells j := by
    intro j hj
    rw [hreceived ⟨j, by omega⟩ hj, extendBlob1D, dif_pos j.2]
  rw [recoverBlob1D, if_neg (by omega)]
  split
  case isTrue hall =>
    refine congrArg Except.ok (funext fun j => horiginal j ?_)
    have hj : j.val < availableMask.length := by omega
    rw [List.getD_eq_getElem _ _ hj]
    exact List.all_eq_true.1 hall _ (List.mem_take_iff_getElem.2 ⟨j, by omega, rfl⟩)
  case isFalse =>
    obtain ⟨idx, hinj, hidx⟩ := exists_available hlen hcount
    have hcells : ∀ i : Fin n,
        (if h : ((maskIndices availableMask).take n).getD i 0 < 2 * n then
          (.ok (received ⟨_, h⟩) : Except RecoverError Cell)
        else .error .indexOutOfRange) = .ok (extendBlob1D cells (idx i)) := by
      intro i
      have hlt : ((maskIndices availableMask).take n).getD i 0 < 2 * n := by
        rw [(hidx i).1]
        exact (idx i).2
      rw [dif_pos hlt, ← hreceived (idx i) (hidx i).2]
      simp only [(hidx i).1]
    simp only [collect_eq_ok hcells]
    simp only [(hidx _).1]
    refine collect_eq_ok fun j => ?_
    split
    case isTrue havail => rw [horiginal j havail]
    case isFalse havail =>
      have hj : ∀ i, (idx i).val ≠ j.val := fun i h => havail (h ▸ (hidx i).2)
      rw [recoverCell_eq _ _ _ fun i => evalPoint_xor_ne_zero (by omega) (by omega) (hj i).symm,
        parityCell_extendBlob1D cells hpoints hinj hj]
      exact fun i i' h => hinj (Fin.ext (evalPoint_inj (by omega) (by omega) h))

theorem two_mul_le_gf16Order (hn : n ≤ cellsPerBlob) : 2 * n ≤ gf16Order := by
  unfold cellsPerBlob at hn
  unfold gf16Order
  omega

/-- Any half of the cells of an extended blob gives the blob back, whatever
stands in the place of the other cells. -/
theorem recoverBlob1D_extendBlob1D {n : Nat} (hn : n ≤ cellsPerBlob) (cells : Fin n → Cell)
    (availableMask : List Bool) (hlen : availableMask.length = 2 * n)
    (hcount : n ≤ availableMask.count true) (received : Fin (2 * n) → Cell)
    (hreceived : ∀ i : Fin (2 * n), availableMask.getD i false = true →
      received i = extendBlob1D cells i) : recoverBlob1D received availableMask = .ok cells :=
  recoverBlob1D_of_points (two_mul_le_gf16Order hn) hlen hcount hreceived

/-- All original cells of a full blob lost and overwritten. -/
theorem recoverBlob1D_parity_only :
    let cells : Fin cellsPerBlob → Cell := fun j => copyInto cellSize (bigEndian 2 j)
    recoverBlob1D (fun i => if i.val < cellsPerBlob then zeroArr cellSize else extendBlob1D cells i)
      (List.replicate cellsPerBlob false ++ List.replicate cellsPerBlob true) = .ok cells := by
  intro cells
  refine recoverBlob1D_extendBlob1D le_rfl cells _ (by simp; omega) (by simp) _ fun i hi => ?_
  refine if_neg fun hlt => ?_
  rw [List.getD_append _ _ _ _ (by simpa using hlt), List.getD_replicate _ hlt] at hi
  exact Bool.noConfusion hi

/-! ## Blobs as cells -/

theorem toList_cellsToBlob (cells : Fin n → Cell) :
    (cellsToBlob cells).toList = (List.ofFn cells).flatMap List.Vector.toList := by
  have hlen := length_flatMap_blocks (fun c : Cell => c.toList_length) (List.ofFn cells)
  rw [List.length_ofFn] at hlen
  rw [cellsToBlob, copyInto_toList_of_le_length hlen.ge, List.take_of_length_le hlen.le]

theorem blobToCells_cellsToBlob (cells : Fin n → Cell) :
    blobToCells (cellsToBlob cells) = cells := by
  funext i
  have htake := take_drop_flatMap cellSize List.Vector.toList (fun c : Cell => c.toList_length)
    (List.ofFn cells) i (by simp)
  rw [List.getElem_ofFn, Nat.mul_comm] at htake
  have hlen : cellSize ≤ (((List.ofFn cells).flatMap List.Vector.toList).drop (i * cellSize)).length := by
    have h := congrArg List.length htake
    rw [List.length_take, List.Vector.toList_length] at h
    omega
  refine List.Vector.eq _ _ ?_
  rw [blobToCells, toList_cellsToBlob, copyInto_toList_of_le_length hlen, htake]

theorem flatMap_chunks {b : Bytes} (hb : b.length = n * cellSize) :
    (List.ofFn fun i : Fin n => copyInto cellSize (b.drop (i * cellSize))).flatMap
      List.Vector.toList = b := by
  induction n generalizing b with
  | zero =>
    rw [Nat.zero_mul, List.length_eq_zero_iff] at hb
    simp [hb]
  | succ n ih =>
    rw [Nat.succ_mul] at hb
    have hrest := ih (b := b.drop cellSize) (by rw [List.length_drop]; omega)
    simp only [List.drop_drop] at hrest
    rw [List.ofFn_succ, List.flatMap_cons, Fin.val_zero, Nat.zero_mul, List.drop_zero,
      copyInto_toList_of_le_length (by omega)]
    simp only [Fin.val_succ, Nat.succ_mul, Nat.add_comm _ cellSize]
    rw [hrest, List.take_append_drop]

theorem cellsToBlob_blobToCells (blob : Blob n) : cellsToBlob (blobToCells blob) = blob := by
  refine List.Vector.eq _ _ ?_
  rw [toList_cellsToBlob]
  exact flatMap_chunks blob.toList_length

/-! ## Several blobs -/

/-- The decoder returns, for every original column, the blob whose extension
stands in the available rows of that column. -/
theorem recoverBlobs2D_eq_ok {k : Nat} (hn : n ≤ cellsPerBlob) (hk : 0 < k)
    (hk' : k ≤ maxBlobColumns) {colMask rowMask : List Bool} (hcols : k ≤ colMask.count true)
    (hlen : rowMask.length = 2 * n) (hrows : n ≤ rowMask.count true)
    {received : BlobMatrixExtended n} (cells : Fin k → Fin n → Cell)
    (hreceived : ∀ (c : Fin k) (r : Fin (2 * n)), rowMask.getD r false = true →
      received ⟨c, by unfold maxBlobColumnsExt; omega⟩ r = extendBlob1D (cells c) r) :
    recoverBlobs2D received colMask rowMask k =
      .ok ((List.finRange k).map fun c => cellsToBlob (cells c)) := by
  have hcol : ∀ c : Fin k, (do
      let cells ← (recoverBlob1D (received ⟨c, by unfold maxBlobColumnsExt; omega⟩) rowMask).mapError
        (RecoverError.recoverBlob c)
      return cellsToBlob cells) = Except.ok (cellsToBlob (cells c)) := by
    intro c
    rw [recoverBlob1D_of_points (two_mul_le_gf16Order hn) hlen hrows (hreceived c)]
    rfl
  rw [recoverBlobs2D, dif_neg (by omega)]
  rw [if_neg (by omega), if_neg (by omega)]
  simp only [hcol]
  exact List.mapM_pure

theorem extendBlobs2D_original {blobs : List (Blob n)} {matrix : BlobMatrixExtended n}
    (h : extendBlobs2D blobs = .ok matrix) :
    0 < blobs.length ∧ ∃ hk : blobs.length ≤ maxBlobColumns, ∀ c : Fin blobs.length,
      matrix ⟨c, by unfold maxBlobColumnsExt; omega⟩ = extendBlob1D (blobToCells (blobs.get c)) := by
  rw [extendBlobs2D] at h
  split at h
  · exact nomatch h
  · refine ⟨by omega, by omega, fun c => ?_⟩
    obtain rfl := Except.ok.inj h
    exact funext fun r => dif_pos c.2

/-- A matrix in which one column is exchanged for the extension of other cells. -/
def withColumn {n : Nat} (matrix : BlobMatrixExtended n) (col : Nat) (cells : Fin n → Cell) :
    BlobMatrixExtended n :=
  fun c r => if c.val = col then extendBlob1D cells r else matrix c r

/-- Recovery across columns succeeds, whatever stands in the unavailable rows
and columns, exactly when every original column is available: the parity
columns are never read, and a lost original column is read as it stands. -/
theorem recoverBlobs2D_iff {n : Nat} (hpos : 0 < n) (hn : n ≤ cellsPerBlob) (blobs : List (Blob n))
    (matrix : BlobMatrixExtended n) (hext : extendBlobs2D blobs = .ok matrix)
    (colMask rowMask : List Bool) (hcols : blobs.length ≤ colMask.count true)
    (hrowLen : rowMask.length = 2 * n) (hrows : n ≤ rowMask.count true) :
    (∀ received : BlobMatrixExtended n,
      (∀ (c : Fin maxBlobColumnsExt) (r : Fin (2 * n)), colMask.getD c false = true →
        rowMask.getD r false = true → received c r = matrix c r) →
      recoverBlobs2D received colMask rowMask blobs.length = .ok blobs) ↔
    ∀ c < blobs.length, colMask.getD c false = true := by
  obtain ⟨hk, hk', horiginal⟩ := extendBlobs2D_original hext
  constructor
  · intro hrecover c hc
    by_contra hlost
    -- the decoder cannot tell the lost column from another blob's extension
    let cells : Fin n → Cell := fun j =>
      if blobToCells (blobs.get ⟨c, hc⟩) j = zeroArr cellSize then copyInto cellSize [1]
      else zeroArr cellSize
    have hne : cells ⟨0, hpos⟩ ≠ blobToCells (blobs.get ⟨c, hc⟩) ⟨0, hpos⟩ := by
      show ite _ _ _ ≠ _
      split
      case isTrue h => rw [h]; decide
      case isFalse h => exact fun heq => h heq.symm
    have hres := hrecover (withColumn matrix c cells) fun c' r hc' _ =>
      if_neg fun (heq : c'.val = c) => hlost (heq ▸ hc')
    rw [recoverBlobs2D_eq_ok hn hk hk' hcols hrowLen hrows
      fun c' => if c'.val = c then cells else blobToCells (blobs.get c')] at hres
    · have hget : cellsToBlob cells = blobs.get ⟨c, hc⟩ := by
        simpa [hc] using congrArg (fun l => l[c]?) (Except.ok.inj hres)
      exact hne (by rw [← hget, blobToCells_cellsToBlob])
    · intro c' r _
      rw [withColumn]
      split
      · rfl
      · rw [horiginal]
  · intro hall received hreceived
    rw [recoverBlobs2D_eq_ok hn hk hk' hcols hrowLen hrows fun c => blobToCells (blobs.get c)]
    · simp only [cellsToBlob_blobToCells]
      exact congrArg Except.ok (List.map_get_finRange blobs)
    · intro c r hr
      rw [hreceived _ r (hall c c.2) hr, horiginal]

/-- Two full blobs of which no parity column is available. -/
theorem recoverBlobs2D_original_columns :
    let blobs : List (Blob cellsPerBlob) := [zeroArr _, zeroArr _]
    let colMask := true :: true :: List.replicate 10 false
    let rowMask := List.replicate cellsPerBlob false ++ List.replicate cellsPerBlob true
    ∃ matrix, extendBlobs2D blobs = .ok matrix ∧
      ∀ received : BlobMatrixExtended cellsPerBlob,
        (∀ (c : Fin maxBlobColumnsExt) (r : Fin (2 * cellsPerBlob)), colMask.getD c false = true →
          rowMask.getD r false = true → received c r = matrix c r) →
        recoverBlobs2D received colMask rowMask 2 = .ok blobs := by
  intro blobs colMask rowMask
  exact ⟨_, rfl, (recoverBlobs2D_iff (by decide) le_rfl blobs _ rfl colMask rowMask (by decide)
    (by simp [rowMask]; omega) (by simp [rowMask])).2 (by decide)⟩

/-- One blob, of which the decoder gets every parity column and no original
one. The lost column is filled with other data, and this is what comes back. -/
theorem recoverBlobs2D_lost_column : let colMask := false :: List.replicate 11 true
    let rowMask := List.replicate (2 * cellsPerBlob) true
    let cells : Fin cellsPerBlob → Cell := fun _ => copyInto cellSize [1]
    ∃ matrix, extendBlobs2D [(zeroArr _ : Blob cellsPerBlob)] = .ok matrix ∧
      (∀ (c : Fin maxBlobColumnsExt) (r : Fin (2 * cellsPerBlob)), colMask.getD c false = true →
        withColumn matrix 0 cells c r = matrix c r) ∧
      recoverBlobs2D (withColumn matrix 0 cells) colMask rowMask 1 = .ok [cellsToBlob cells] ∧
      cellsToBlob cells ≠ zeroArr _ := by
  intro colMask rowMask cells
  refine ⟨_, rfl, ?_, ?_, ?_⟩
  · intro c r hc
    refine if_neg fun h => ?_
    rw [h] at hc
    exact Bool.noConfusion hc
  · exact recoverBlobs2D_eq_ok (k := 1) le_rfl (by decide) (by decide) (by decide) (by simp [rowMask])
      (by rw [List.count_replicate_self]; omega) (fun _ => cells) fun c r _ => if_pos (by simp)
  · intro h
    have hcell := congrFun (congrArg blobToCells h) ⟨0, by decide⟩
    rw [blobToCells_cellsToBlob] at hcell
    exact absurd hcell (by decide)

end Qau
