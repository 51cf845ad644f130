import Mathlib

/-!
# Byte strings, fixed-width arrays and big-endian numbers

The vocabulary shared by every byte-level model: a Go `[]byte` is a list
of bytes, a Go `[n]byte` is a `List.Vector` of `n` bytes, and
`copy(dst[:], src)` into a fresh array is `copyInto`, which truncates a
long source and leaves the tail of a short one zero. Nothing here is
about a particular program; the codecs and key schedules are built on the
round trips `ofBigEndian_bigEndian` and `copyInto_toList`.
-/

namespace Qau

variable {n w : Nat}

/-- A Go byte slice. A nil slice and an empty one are the same list: no
modelled function tells them apart. -/
abbrev Bytes := List UInt8

variable {src : Bytes}

/-- A Go `[n]byte`. -/
abbrev ByteArr (n : Nat) := List.Vector UInt8 n

theorem forall_mem_snoc {α : Type*} {P : α → Prop} {l : List α} {a : α} (hl : ∀ x ∈ l, P x)
    (ha : P a) : ∀ x ∈ l ++ [a], P x :=
  List.forall_mem_append.mpr ⟨hl, List.forall_mem_singleton.mpr ha⟩

/-! ## Fixed-width arrays -/

/-- `copy(dst[:], src)` into a zeroed `[n]byte`. -/
def copyInto (n : Nat) (src : Bytes) : ByteArr n :=
  ⟨(src ++ List.replicate n 0).take n, by simp⟩

/-- The zero value of `[n]byte`. -/
def zeroArr (n : Nat) : ByteArr n := List.Vector.replicate n 0

theorem copyInto_toList_of_length_le (h : src.length ≤ n) :
    (copyInto n src).toList = src ++ List.replicate (n - src.length) 0 := by
  show (src ++ List.replicate n 0).take n = _
  rw [List.take_append, List.take_of_length_le h, List.take_replicate, min_eq_left (by omega)]

theorem copyInto_toList_of_le_length (h : n ≤ src.length) :
    (copyInto n src).toList = src.take n := by
  show (src ++ List.replicate n 0).take n = _
  rw [List.take_append_of_le_length h]

@[simp] theorem copyInto_toList (a : ByteArr n) : copyInto n a.toList = a := by
  apply List.Vector.eq
  rw [copyInto_toList_of_le_length (by simp)]
  exact List.take_of_length_le (by simp)

theorem copyInto_inj_of_length {a b : Bytes} (ha : a.length ≤ n) (hlen : a.length = b.length)
    (h : copyInto n a = copyInto n b) : a = b := by
  have h' := congrArg List.Vector.toList h
  rw [copyInto_toList_of_length_le ha, copyInto_toList_of_length_le (hlen ▸ ha)] at h'
  exact (List.append_inj h' hlen).1

theorem take_copyInto (h : src.length ≤ n) : (copyInto n src).toList.take src.length = src := by
  rw [copyInto_toList_of_length_le h]
  exact List.take_left' rfl

/-! ## Blocks of one width -/

section
variable {α : Type} {w : Nat} {f : α → Bytes} (hf : ∀ a, (f a).length = w)
include hf

theorem length_flatMap_blocks (l : List α) : (l.flatMap f).length = l.length * w := by
  induction l with
  | nil => simp
  | cons a l ih =>
    rw [List.flatMap_cons, List.length_append, ih, hf, List.length_cons]
    ring

end

theorem take_drop_flatMap {α : Type} (w : Nat) (f : α → Bytes) (hf : ∀ a, (f a).length = w)
    (l : List α) (i : Nat) (hi : i < l.length) : ((l.flatMap f).drop (w * i)).take w = f l[i] := by
  induction l generalizing i with
  | nil => simp at hi
  | cons a l ih =>
    cases i with
    | zero => simp [List.take_left' (hf a)]
    | succ i =>
      have hw : w * (i + 1) = (f a).length + w * i := by rw [hf a]; ring
      rw [List.flatMap_cons, hw, List.drop_length_add_append, ih i (by simpa using hi)]
      rfl

/-! ## Big-endian numbers -/

/-- The `w` low-order bytes of `n`, most significant first: what
`binary.BigEndian.PutUintN` writes for `uintN(n)`. -/
def bigEndian : Nat → Nat → Bytes
  | 0, _ => []
  | w + 1, n => bigEndian w (n / 256) ++ [UInt8.ofNat n]

/-- The number a big-endian byte string denotes. -/
def ofBigEndian (b : Bytes) : Nat :=
  b.foldl (fun acc x => acc * 256 + x.toNat) 0

@[simp] theorem bigEndian_length (w n : Nat) : (bigEndian w n).length = w := by
  induction w generalizing n with
  | zero => rfl
  | succ w ih => simp [bigEndian, ih]

theorem ofBigEndian_append_singleton (b : Bytes) (x : UInt8) :
    ofBigEndian (b ++ [x]) = ofBigEndian b * 256 + x.toNat := by
  simp [ofBigEndian]

/-- Reading back a big-endian number gives its residue modulo the width. -/
theorem ofBigEndian_bigEndian (w n : Nat) : ofBigEndian (bigEndian w n) = n % 256 ^ w := by
  induction w generalizing n with
  | zero => simp [bigEndian, ofBigEndian, Nat.mod_one]
  | succ w ih =>
    rw [bigEndian, ofBigEndian_append_singleton, ih, UInt8.toNat_ofNat']
    have hpow : 256 ^ (w + 1) = 256 * 256 ^ w := Nat.pow_succ'
    rw [hpow, Nat.mod_mul]
    omega

theorem ofBigEndian_bigEndian_of_lt (h : n < 256 ^ w) : ofBigEndian (bigEndian w n) = n := by
  rw [ofBigEndian_bigEndian, Nat.mod_eq_of_lt h]

theorem bigEndian_inj {m : Nat} (hm : m < 256 ^ w) (hn : n < 256 ^ w)
    (h : bigEndian w m = bigEndian w n) : m = n := by
  rw [← ofBigEndian_bigEndian_of_lt hm, h, ofBigEndian_bigEndian_of_lt hn]

end Qau
