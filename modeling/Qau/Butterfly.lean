import Mathlib

/-!
# The in-place Fourier transform

The iterative transform on arrays of `2 ^ bits` words: a permutation by bit
reversal and then `bits` rounds of butterflies, each round multiplying by
the running powers of a root of unity.

The words are any type with the three ring operations, and `Represents`
relates them to a commutative ring on a set of good words, so that modular
arithmetic with several words for one residue fits. Arrays are functions
from indices; the loops are folds of updates in the order of an imperative
program. `transform_eq` is the discrete Fourier transform as a sum; the
invariant of the rounds (`rounds_spec`) is that each block holds the
transform of a slice of the input.
-/

namespace Qau.Butterfly

open Function

variable {bits c n x : Nat}

/-- The operations of the words. -/
structure Ops (α : Type) where
  add : α → α → α
  sub : α → α → α
  mul : α → α → α
  one : α

/-- The good words stand for elements of a ring, and the operations for its
operations. -/
structure Represents {α : Type} (ops : Ops α) (R : Type) [CommRing R] where
  val : α → R
  good : α → Prop
  one : good ops.one ∧ val ops.one = 1
  add {a b : α} : good a → good b → good (ops.add a b) ∧ val (ops.add a b) = val a + val b
  sub {a b : α} : good a → good b → good (ops.sub a b) ∧ val (ops.sub a b) = val a - val b
  mul {a b : α} : good a → good b → good (ops.mul a b) ∧ val (ops.mul a b) = val a * val b

/-! ## Bit reversal -/

/-- The loop that moves the bits of `n` to `result`. -/
def reverseBits : (bits n result : Nat) → Nat
  | 0, _, result => result
  | bits + 1, n, result => reverseBits bits (n / 2) (2 * result + n % 2)

theorem reverseBits_eq (bits n result : Nat) :
    reverseBits bits n result = result * 2 ^ bits + reverseBits bits n 0 := by
  induction bits generalizing n result with
  | zero => simp [reverseBits]
  | succ bits ih =>
    rw [reverseBits, reverseBits, ih, ih (n / 2) (2 * 0 + n % 2)]
    ring

theorem reverseBits_succ (bits n : Nat) :
    reverseBits (bits + 1) n 0 = n % 2 * 2 ^ bits + reverseBits bits (n / 2) 0 := by
  rw [reverseBits, reverseBits_eq]
  ring

theorem reverseBits_lt (bits n : Nat) : reverseBits bits n 0 < 2 ^ bits := by
  induction bits generalizing n with
  | zero => simp [reverseBits]
  | succ bits ih =>
    have h := ih (n / 2)
    have h2 : n % 2 * 2 ^ bits ≤ 1 * 2 ^ bits := Nat.mul_le_mul_right _ (by omega)
    rw [reverseBits_succ]
    omega

theorem reverseBits_high {r : Nat} (hr : r < 2 ^ bits) (hc : c < 2) :
    reverseBits (bits + 1) (c * 2 ^ bits + r) 0 = 2 * reverseBits bits r 0 + c := by
  induction bits generalizing r with
  | zero =>
    simp [reverseBits]
    omega
  | succ bits ih =>
    have hdiv : (c * 2 ^ (bits + 1) + r) / 2 = c * 2 ^ bits + r / 2 := by
      rw [pow_succ, ← Nat.mul_assoc]
      omega
    have hmod : (c * 2 ^ (bits + 1) + r) % 2 = r % 2 := by
      rw [pow_succ, ← Nat.mul_assoc]
      omega
    rw [reverseBits_succ (bits + 1), hdiv, hmod, ih (by rw [pow_succ] at hr; omega),
      reverseBits_succ bits r]
    ring

theorem reverseBits_reverseBits (hn : n < 2 ^ bits) :
    reverseBits bits (reverseBits bits n 0) 0 = n := by
  induction bits generalizing n with
  | zero =>
    simp [reverseBits] at hn ⊢
    omega
  | succ bits ih =>
    rw [reverseBits_succ bits n, reverseBits_high (reverseBits_lt _ _) (Nat.mod_lt _ two_pos),
      ih (by rw [pow_succ] at hn; omega)]
    omega

/-! ## The permutation -/

section Permute

variable {α : Type}

/-- One round of the permutation loop. -/
def swapRound (bits : Nat) (r : Nat → α) (i : Nat) : Nat → α :=
  let j := reverseBits bits i 0
  if i < j then update (update r i (r j)) j (r i) else r

def permute (bits : Nat) (a : Nat → α) : Nat → α :=
  (List.range (2 ^ bits)).foldl (swapRound bits) a

/-- After the rounds up to `k`, the indices seen so far and their partners
are exchanged. -/
theorem foldl_swapRound (bits : Nat) (a : Nat → α) {k : Nat} (hk : k ≤ 2 ^ bits) (hx : x < 2 ^ bits)
    : (List.range k).foldl (swapRound bits) a x =
      if x < k ∨ reverseBits bits x 0 < k then a (reverseBits bits x 0) else a x := by
  induction k generalizing x with
  | zero => simp
  | succ k ih =>
    have hklt : k < 2 ^ bits := hk
    have hrk := reverseBits_lt bits k
    have hrr := reverseBits_reverseBits hklt
    have hxx := reverseBits_reverseBits hx
    rw [List.range_succ, List.foldl_append, List.foldl_cons, List.foldl_nil]
    have hih : ∀ y, y < 2 ^ bits → (List.range k).foldl (swapRound bits) a y =
        if y < k ∨ reverseBits bits y 0 < k then a (reverseBits bits y 0) else a y :=
      fun y hy => ih (by omega) hy
    generalize (List.range k).foldl (swapRound bits) a = r at hih
    unfold swapRound
    by_cases hswap : k < reverseBits bits k 0
    · rw [if_pos hswap]
      by_cases hxj : x = reverseBits bits k 0
      · subst hxj
        rw [update_self, hih k hklt, hrr, if_neg (by omega), if_pos (by omega)]
      · rw [update_of_ne hxj]
        by_cases hxk : x = k
        · subst hxk
          rw [update_self, hih _ hrk, hrr, if_neg (by omega), if_pos (by omega)]
        · rw [update_of_ne hxk, hih x hx]
          have hne : reverseBits bits x 0 ≠ k := by
            rintro rfl
            exact hxj hxx.symm
          have hiff : (x < k + 1 ∨ reverseBits bits x 0 < k + 1) ↔
              (x < k ∨ reverseBits bits x 0 < k) := by omega
          simp only [hiff]
    · rw [if_neg hswap, hih x hx]
      by_cases hxk : x = k
      · subst hxk
        by_cases heq : reverseBits bits x 0 = x
        · rw [heq, if_neg (by omega), if_pos (by omega)]
        · rw [if_pos (by omega), if_pos (by omega)]
      · by_cases hrx : reverseBits bits x 0 = k
        · have : reverseBits bits k 0 = x := by rw [← hrx, hxx]
          rw [if_pos (by omega), if_pos (by omega)]
        · have hiff : (x < k + 1 ∨ reverseBits bits x 0 < k + 1) ↔
              (x < k ∨ reverseBits bits x 0 < k) := by omega
          simp only [hiff]

theorem permute_apply (bits : Nat) (a : Nat → α) (hx : x < 2 ^ bits) :
    permute bits a x = a (reverseBits bits x 0) := by
  unfold permute
  rw [foldl_swapRound bits a le_rfl hx, if_pos (.inl hx)]

end Permute

/-! ## Butterflies -/

section Rounds

variable {α : Type} (ops : Ops α)

/-- One butterfly, with the running power in the second component. -/
def butterfly (half k : Nat) (omegaM : α) (s : (Nat → α) × α) (j : Nat) : (Nat → α) × α :=
  let t := ops.mul s.2 (s.1 (k + j + half))
  let u := s.1 (k + j)
  (update (update s.1 (k + j) (ops.add u t)) (k + j + half) (ops.sub u t),
    ops.mul s.2 omegaM)

/-- The butterflies of the block that starts at `k`. -/
def block (half : Nat) (omegaM : α) (r : Nat → α) (k : Nat) : Nat → α :=
  ((List.range half).foldl (butterfly ops half k omegaM) (r, ops.one)).1

/-- A round: all blocks of `2 * half` words. -/
def round (count half : Nat) (omegaM : α) (r : Nat → α) : Nat → α :=
  (List.range count).foldl (fun r b => block ops half omegaM r (b * (2 * half))) r

/-- `root s` is the root of unity of round `s`. -/
def rounds (bits : Nat) (root : Nat → α) (count : Nat) (r : Nat → α) : Nat → α :=
  (List.range count).foldl (fun r s => round ops (2 ^ bits / 2 ^ (s + 1)) (2 ^ s) (root s) r) r

def transform (bits : Nat) (root : Nat → α) (a : Nat → α) : Nat → α :=
  rounds ops bits root bits (permute bits a)

variable {ops} {R : Type} [CommRing R] (rep : Represents ops R) {half k : Nat} {omegaM : α}
  {r : Nat → α}

theorem foldl_butterfly (hr : ∀ x, rep.good (r x)) (hw : rep.good omegaM) (hc : c ≤ half) :
    let s := (List.range c).foldl (butterfly ops half k omegaM) (r, ops.one)
    rep.good s.2 ∧ rep.val s.2 = rep.val omegaM ^ c ∧ (∀ x, rep.good (s.1 x)) ∧
      ∀ x, rep.val (s.1 x) =
        if k ≤ x ∧ x < k + c then rep.val (r x) + rep.val omegaM ^ (x - k) * rep.val (r (x + half))
        else if k + half ≤ x ∧ x < k + half + c then
          rep.val (r (x - half)) - rep.val omegaM ^ (x - half - k) * rep.val (r x)
        else rep.val (r x) := by
  induction c with
  | zero =>
    refine ⟨rep.one.1, ?_, hr, fun x => ?_⟩
    · rw [pow_zero]
      exact rep.one.2
    · rw [if_neg (by omega), if_neg (by omega)]
      rfl
  | succ c ih =>
    obtain ⟨hgw, hvw, hg, hv⟩ := ih (by omega)
    rw [List.range_succ, List.foldl_append, List.foldl_cons, List.foldl_nil]
    generalize (List.range c).foldl (butterfly ops half k omegaM) (r, ops.one) = s at hgw hvw hg hv
    have hu : rep.val (s.1 (k + c)) = rep.val (r (k + c)) := by
      rw [hv, if_neg (by omega), if_neg (by omega)]
    have ht : rep.val (s.1 (k + c + half)) = rep.val (r (k + c + half)) := by
      rw [hv, if_neg (by omega), if_neg (by omega)]
    obtain ⟨hgt, hvt⟩ := rep.mul hgw (hg (k + c + half))
    obtain ⟨hga, hva⟩ := rep.add (hg (k + c)) hgt
    obtain ⟨hgs, hvs⟩ := rep.sub (hg (k + c)) hgt
    obtain ⟨hgm, hvm⟩ := rep.mul hgw hw
    rw [hvt, hvw, hu, ht] at hva hvs
    refine ⟨hgm, ?_, fun x => ?_, fun x => ?_⟩
    · rw [pow_succ, ← hvw]
      exact hvm
    · unfold butterfly
      dsimp only
      by_cases h1 : x = k + c + half
      · rw [h1, update_self]
        exact hgs
      · rw [update_of_ne h1]
        by_cases h2 : x = k + c
        · rw [h2, update_self]
          exact hga
        · rw [update_of_ne h2]
          exact hg x
    · unfold butterfly
      dsimp only
      by_cases h1 : x = k + c + half
      · rw [h1, update_self, hvs, if_neg (by omega), if_pos (by omega)]
        have e1 : k + c + half - half = k + c := by omega
        have e2 : k + c - k = c := by omega
        rw [e1, e2]
      · rw [update_of_ne h1]
        by_cases h2 : x = k + c
        · have e : k + c - k = c := by omega
          rw [h2, update_self, hva, if_pos (by omega), e]
        · rw [update_of_ne h2, hv]
          have i1 : (k ≤ x ∧ x < k + (c + 1)) ↔ (k ≤ x ∧ x < k + c) := by omega
          have i2 : (k + half ≤ x ∧ x < k + half + (c + 1)) ↔
              (k + half ≤ x ∧ x < k + half + c) := by omega
          simp only [i1, i2]

/-- The words of index `x` after a round, from those before it. -/
def mix (f : Nat → R) (half : Nat) (w : R) (x : Nat) : R :=
  if x % (2 * half) < half then f x + w ^ (x % (2 * half)) * f (x + half)
  else f (x - half) - w ^ (x % (2 * half) - half) * f x

theorem foldl_block (hhalf : 0 < half) (hr : ∀ x, rep.good (r x)) (hw : rep.good omegaM)
    (count : Nat) : (∀ x, rep.good (round ops count half omegaM r x)) ∧
      ∀ x, rep.val (round ops count half omegaM r x) =
        if x < count * (2 * half) then mix (fun y => rep.val (r y)) half (rep.val omegaM) x
        else rep.val (r x) := by
  unfold round
  induction count with
  | zero => exact ⟨hr, fun x => by rw [Nat.zero_mul, if_neg (by omega)]; rfl⟩
  | succ count ih =>
    obtain ⟨hg, hv⟩ := ih
    rw [List.range_succ, List.foldl_append, List.foldl_cons, List.foldl_nil]
    generalize (List.range count).foldl (fun r b => block ops half omegaM r (b * (2 * half))) r = r'
      at hg hv
    obtain ⟨-, -, hg', hv'⟩ := foldl_butterfly rep (k := count * (2 * half)) hg hw le_rfl
    refine ⟨hg', fun x => ?_⟩
    unfold block
    rw [hv']
    have hold : ∀ y, count * (2 * half) ≤ y → rep.val (r' y) = rep.val (r y) := fun y hy => by
      rw [hv, if_neg (by omega)]
    have hnext : (count + 1) * (2 * half) = count * (2 * half) + 2 * half := by ring
    rw [hnext]
    by_cases hlow : x < count * (2 * half)
    · rw [if_neg (by omega), if_neg (by omega), hv, if_pos hlow, if_pos (by omega)]
    · obtain ⟨y, rfl⟩ := Nat.exists_eq_add_of_le (not_lt.mp hlow)
      by_cases hy : y < 2 * half
      · have hmod : (count * (2 * half) + y) % (2 * half) = y := by
          rw [Nat.mul_comm, Nat.mul_add_mod, Nat.mod_eq_of_lt hy]
        have hin : count * (2 * half) + y < count * (2 * half) + 2 * half := by omega
        rw [if_pos hin]
        unfold mix
        rw [hmod]
        by_cases hyh : y < half
        · rw [if_pos (by omega), if_pos hyh, hold _ (by omega), hold _ (by omega)]
          congr 3
          omega
        · rw [if_neg (by omega), if_pos (by omega), if_neg hyh, hold _ (by omega), hold _ (by omega)]
          congr 3
          omega
      · rw [if_neg (by omega), if_neg (by omega), if_neg (by omega), hold _ (by omega)]

/-! ## The invariant of the rounds -/

/-- The transform of the slice of `f` with the given first index and stride,
at `j`. -/
def slice (f : Nat → R) (size stride first : Nat) (w : R) (j : Nat) : R :=
  ∑ t ∈ Finset.range size, f (t * stride + first) * w ^ (j * t)

/-- The transforms of the even and the odd half of a slice give the
transform of the slice. -/
theorem slice_even_odd (f : Nat → R) (size stride first : Nat) (w : R) (j : Nat) :
    slice f (2 * size) stride first w j =
      slice f size (2 * stride) first (w ^ 2) j +
        w ^ j * slice f size (2 * stride) (stride + first) (w ^ 2) j := by
  unfold slice
  induction size with
  | zero => simp
  | succ size ih =>
    have hsize : 2 * (size + 1) = 2 * size + 1 + 1 := by ring
    rw [hsize, Finset.sum_range_succ, Finset.sum_range_succ, ih, Finset.sum_range_succ,
      Finset.sum_range_succ]
    have h1 : 2 * size * stride + first = size * (2 * stride) + first := by ring
    have h2 : (2 * size + 1) * stride + first = size * (2 * stride) + (stride + first) := by ring
    rw [h1, h2]
    ring

/-- The transform only depends on the index modulo the order of the root. -/
theorem slice_add {f : Nat → R} {size stride first : Nat} {w : R} (hw : w ^ size = 1) (j : Nat) :
    slice f size stride first w (j + size) = slice f size stride first w j := by
  unfold slice
  refine Finset.sum_congr rfl fun t _ => ?_
  rw [Nat.add_mul, pow_add, pow_mul w size t, hw, one_pow, mul_one]

theorem reverseBits_two_mul (d b : Nat) : reverseBits (d + 1) (2 * b) 0 = reverseBits d b 0 := by
  rw [reverseBits_succ, Nat.mul_mod_right, Nat.mul_div_cancel_left _ two_pos, Nat.zero_mul,
    Nat.zero_add]

theorem reverseBits_two_mul_add_one (d b : Nat) :
    reverseBits (d + 1) (2 * b + 1) 0 = 2 ^ d + reverseBits d b 0 := by
  have h1 : (2 * b + 1) % 2 = 1 := by omega
  have h2 : (2 * b + 1) / 2 = b := by omega
  rw [reverseBits_succ, h1, h2, Nat.one_mul]

/-- A round turns the transforms of the slices of two neighbouring blocks
into the transform of the slice of both. -/
theorem round_slice {s d : Nat} {W : R} {f : Nat → R} (hg : ∀ x, rep.good (r x))
    (hgw : rep.good omegaM) (hvw : rep.val omegaM = W) (hW : W ^ 2 ^ s = -1)
    (hv : ∀ b j, b < 2 ^ (d + 1) → j < 2 ^ s → rep.val (r (b * 2 ^ s + j)) =
      slice f (2 ^ s) (2 ^ (d + 1)) (reverseBits (d + 1) b 0) (W ^ 2) j) {b j : Nat}
    (hb : b < 2 ^ d) (hj : j < 2 ^ (s + 1)) :
    rep.val (round ops (2 ^ d) (2 ^ s) omegaM r (b * 2 ^ (s + 1) + j)) =
      slice f (2 ^ (s + 1)) (2 ^ d) (reverseBits d b 0) W j := by
  have hhalf : 0 < 2 ^ s := by positivity
  have hpow : 2 * 2 ^ s = 2 ^ (s + 1) := by ring
  have hW2 : (W ^ 2) ^ 2 ^ s = 1 := by
    rw [← pow_mul, Nat.mul_comm, pow_mul, hW]
    ring
  have hlt : b * 2 ^ (s + 1) + j < 2 ^ d * 2 ^ (s + 1) := by
    have := Nat.mul_le_mul_right (2 ^ (s + 1)) (Nat.succ_le_of_lt hb)
    rw [Nat.succ_mul] at this
    omega
  have hmod : (b * 2 ^ (s + 1) + j) % 2 ^ (s + 1) = j := by
    rw [Nat.mul_comm, Nat.mul_add_mod, Nat.mod_eq_of_lt hj]
  have hb2 : 2 * b + 1 < 2 ^ (d + 1) := by
    rw [pow_succ]
    omega
  have hsplit := slice_even_odd f (2 ^ s) (2 ^ d) (reverseBits d b 0) W j
  rw [hpow, show 2 * 2 ^ d = 2 ^ (d + 1) by ring] at hsplit
  rw [(foldl_block rep hhalf hg hgw (2 ^ d)).2, hpow, if_pos hlt, hsplit]
  unfold mix
  dsimp only
  rw [hpow, hmod, hvw]
  by_cases hjs : j < 2 ^ s
  · have i1 : b * 2 ^ (s + 1) + j = 2 * b * 2 ^ s + j := by ring
    have i2 : b * 2 ^ (s + 1) + j + 2 ^ s = (2 * b + 1) * 2 ^ s + j := by ring
    rw [if_pos hjs, i2, i1, hv (2 * b) j (by omega) hjs, hv (2 * b + 1) j hb2 hjs,
      reverseBits_two_mul, reverseBits_two_mul_add_one]
  · obtain ⟨i, rfl⟩ : ∃ i, j = i + 2 ^ s := ⟨j - 2 ^ s, by omega⟩
    have hi : i < 2 ^ s := by
      rw [pow_succ] at hj
      omega
    have i1 : b * 2 ^ (s + 1) + (i + 2 ^ s) - 2 ^ s = 2 * b * 2 ^ s + i := by
      rw [← Nat.add_assoc, Nat.add_sub_cancel]
      ring
    have i2 : b * 2 ^ (s + 1) + (i + 2 ^ s) = (2 * b + 1) * 2 ^ s + i := by ring
    rw [if_neg hjs, i1, i2, Nat.add_sub_cancel, hv (2 * b) i (by omega) hi,
      hv (2 * b + 1) i hb2 hi, reverseBits_two_mul, reverseBits_two_mul_add_one, slice_add hW2,
      slice_add hW2, pow_add _ i, hW]
    ring

theorem rounds_spec {bits : Nat} {root : Nat → α} {ω : R} (hω : bits ≠ 0 → ω ^ 2 ^ (bits - 1) = -1)
    (hroot : ∀ s, s < bits → rep.good (root s) ∧ rep.val (root s) = ω ^ 2 ^ (bits - 1 - s))
    (hr : ∀ x, rep.good (r x)) {f : Nat → R}
    (hf : ∀ x, x < 2 ^ bits → rep.val (r x) = f (reverseBits bits x 0)) {s : Nat} (hs : s ≤ bits) :
    (∀ x, rep.good (rounds ops bits root s r x)) ∧
      ∀ b j, b < 2 ^ (bits - s) → j < 2 ^ s → rep.val (rounds ops bits root s r (b * 2 ^ s + j)) =
        slice f (2 ^ s) (2 ^ (bits - s)) (reverseBits (bits - s) b 0) (ω ^ 2 ^ (bits - s)) j := by
  induction s with
  | zero =>
    refine ⟨hr, fun b j hb hj => ?_⟩
    obtain rfl : j = 0 := by simpa using hj
    unfold slice rounds
    simp only [pow_zero, Nat.add_zero, List.range_zero, List.foldl_nil, Finset.sum_range_one,
      Nat.zero_mul, Nat.zero_add, mul_one, Nat.sub_zero]
    exact hf b hb
  | succ s ih =>
    obtain ⟨hg, hv⟩ := ih (by omega)
    obtain ⟨d, rfl⟩ : ∃ d, bits = d + s + 1 := ⟨bits - s - 1, by omega⟩
    obtain ⟨hgw, hvw⟩ := hroot s (by omega)
    have e1 : d + s + 1 - (s + 1) = d := by omega
    have e2 : d + s + 1 - s = d + 1 := by omega
    have e3 : d + s + 1 - 1 - s = d := by omega
    have e4 : d + s + 1 - 1 = d + s := by omega
    have hstep : rounds ops (d + s + 1) root (s + 1) r =
        round ops (2 ^ d) (2 ^ s) (root s) (rounds ops (d + s + 1) root s r) := by
      unfold rounds
      rw [List.range_succ, List.foldl_append, List.foldl_cons, List.foldl_nil,
        Nat.pow_div (by omega) two_pos, e1]
    have hW : (ω ^ 2 ^ d) ^ 2 ^ s = -1 := by
      rw [← pow_mul, ← pow_add, ← e4]
      exact hω (by omega)
    have hW2 : ω ^ 2 ^ (d + 1) = (ω ^ 2 ^ d) ^ 2 := by
      rw [← pow_mul, pow_succ]
    rw [e2, hW2] at hv
    rw [e3] at hvw
    rw [hstep, e1]
    exact ⟨(foldl_block rep (by positivity) hg hgw _).1,
      fun b j hb hj => round_slice rep hg hgw hvw hW hv hb hj⟩

theorem permute_forall {P : α → Prop} (bits : Nat) {a : Nat → α} (ha : ∀ x, P (a x)) :
    ∀ x, P (permute bits a x) := by
  have hround : ∀ (r : Nat → α) (i : Nat), (∀ x, P (r x)) → ∀ x, P (swapRound bits r i x) := by
    intro r i hr x
    unfold swapRound
    split_ifs
    · rw [update_apply, update_apply]
      split_ifs
      · exact hr _
      · exact hr _
      · exact hr _
    · exact hr x
  unfold permute
  generalize List.range (2 ^ bits) = l
  induction l generalizing a with
  | nil => exact ha
  | cons i l ih => exact ih (hround a i ha)

/-- The transform computes the discrete Fourier transform. -/
theorem transform_eq {bits : Nat} {root : Nat → α} {ω : R} (hω : bits ≠ 0 → ω ^ 2 ^ (bits - 1) = -1)
    (hroot : ∀ s, s < bits → rep.good (root s) ∧ rep.val (root s) = ω ^ 2 ^ (bits - 1 - s))
    {a : Nat → α} (ha : ∀ x, rep.good (a x)) :
    ∀ j, j < 2 ^ bits → rep.good (transform ops bits root a j) ∧
      rep.val (transform ops bits root a j) =
        ∑ t ∈ Finset.range (2 ^ bits), rep.val (a t) * ω ^ (j * t) := by
  obtain ⟨hg, hv⟩ := rounds_spec rep hω hroot (permute_forall bits ha)
    (f := fun x => rep.val (a x)) (fun x hx => by rw [permute_apply bits a hx]) le_rfl
  intro j hj
  refine ⟨hg j, ?_⟩
  have h := hv 0 j (by simp) hj
  unfold slice at h
  unfold transform
  simpa [reverseBits] using h

end Rounds

/-- The transform with a root of order `n`, then the one with its inverse,
multiplies by `n`. -/
theorem sum_sum_inv {K : Type} [Field K] {ζ : K} (hζ : IsPrimitiveRoot ζ n) (f : Nat → K) {i : Nat}
    (hi : i < n) :
    ∑ j ∈ Finset.range n, (∑ t ∈ Finset.range n, f t * ζ ^ (j * t)) * ζ⁻¹ ^ (i * j) = n * f i := by
  have h0 : ζ ≠ 0 := hζ.ne_zero (by omega)
  have hterm : ∀ t ∈ Finset.range n, ∑ j ∈ Finset.range n, f t * ζ ^ (j * t) * ζ⁻¹ ^ (i * j) =
      if t = i then n * f i else 0 := by
    intro t ht
    have hpow : ∀ j, f t * ζ ^ (j * t) * ζ⁻¹ ^ (i * j) = f t * (ζ ^ t / ζ ^ i) ^ j := by
      intro j
      rw [mul_assoc, mul_comm j t, pow_mul, pow_mul, ← mul_pow, inv_pow, div_eq_mul_inv]
    simp_rw [hpow, ← Finset.mul_sum]
    split_ifs with hti
    · rw [hti, div_self (pow_ne_zero i h0)]
      simp [mul_comm]
    · have hne : ζ ^ t / ζ ^ i - 1 ≠ 0 := by
        rw [sub_ne_zero, Ne, div_eq_one_iff_eq (pow_ne_zero i h0)]
        exact fun h => hti (hζ.pow_inj (Finset.mem_range.mp ht) hi h)
      have hone : (ζ ^ t / ζ ^ i) ^ n = 1 := by
        rw [div_pow, ← pow_mul, ← pow_mul, mul_comm t, mul_comm i, pow_mul, pow_mul, hζ.pow_eq_one,
          one_pow, one_pow, div_one]
      have hgeom := mul_geom_sum (ζ ^ t / ζ ^ i) n
      rw [hone, sub_self, mul_eq_zero, or_iff_right hne] at hgeom
      rw [hgeom, mul_zero]
  simp_rw [Finset.sum_mul]
  rw [Finset.sum_comm, Finset.sum_congr rfl hterm, Finset.sum_ite_eq', if_pos (Finset.mem_range.mpr hi)]

end Qau.Butterfly
