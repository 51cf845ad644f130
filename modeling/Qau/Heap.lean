import Qau.Fmap

/-!
# Shared mutable objects

A program that keeps pointers to one object in several maps changes all of
them when it writes through one. `Heap` holds the objects, a `Ref` is a
pointer. `Tidy` says that the pointers a state owns lead somewhere and that
two keys never share an object; then a write through the pointer of one key
is invisible at every other key (`lookup_write_ne`), whichever map it is
read through.
-/

namespace Qau

open Std.ExtTreeMap

open Std (TransOrd LawfulEqOrd)

abbrev Ref := Nat

structure Heap (α : Type) where
  cells : List α

namespace Heap

variable {r : Ref}

section
variable {α : Type}

def read (h : Heap α) (r : Ref) : Option α := h.cells[r]?

/-- A new object. -/
def alloc (h : Heap α) (a : α) : Ref × Heap α := (h.cells.length, ⟨h.cells ++ [a]⟩)

def write (h : Heap α) (r : Ref) (a : α) : Heap α := ⟨h.cells.set r a⟩

@[simp] theorem cells_alloc (h : Heap α) (a : α) : (h.alloc a).2.cells = h.cells ++ [a] := rfl

@[simp] theorem fst_alloc (h : Heap α) (a : α) : (h.alloc a).1 = h.cells.length := rfl

@[simp] theorem length_write (h : Heap α) (r : Ref) (a : α) :
    (h.write r a).cells.length = h.cells.length := List.length_set

theorem read_write_self {h : Heap α} (hr : r < h.cells.length) (a : α) :
    (h.write r a).read r = some a := by
  rw [read, write, List.getElem?_set_self hr]

theorem read_write_ne {h : Heap α} {r' : Ref} (hne : r ≠ r') (a : α) :
    (h.write r a).read r' = h.read r' := List.getElem?_set_ne hne

@[simp] theorem read_alloc_self (h : Heap α) (a : α) :
    (h.alloc a).2.read (h.alloc a).1 = some a := by
  simp [read]

theorem read_alloc {h : Heap α} (hr : r < h.cells.length) (a : α) :
    (h.alloc a).2.read r = h.read r := List.getElem?_append_left hr

theorem read_isSome {h : Heap α} (hr : r < h.cells.length) :
    ∃ a, h.read r = some a := ⟨_, List.getElem?_eq_getElem hr⟩

end

/-- The pointers that keys own are valid, and no two keys share one. -/
structure Tidy {α κ : Type} (h : Heap α) (owns : κ → Ref → Prop) : Prop where
  valid : ∀ {k r}, owns k r → r < h.cells.length
  apart : ∀ {k k' r}, owns k r → owns k' r → k = k'

namespace Tidy
variable {α κ : Type} {h : Heap α} {owns owns' : κ → Ref → Prop}

theorem mono (ht : Tidy h owns) (hsub : ∀ k r, owns' k r → owns k r) : Tidy h owns' where
  valid hk := ht.valid (hsub _ _ hk)
  apart hk hk' := ht.apart (hsub _ _ hk) (hsub _ _ hk')

theorem write (ht : Tidy h owns) (r : Ref) (a : α) : Tidy (h.write r a) owns where
  valid hk := by rw [length_write]; exact ht.valid hk
  apart := ht.apart

theorem alloc (ht : Tidy h owns) (k : κ) (a : α) :
    Tidy (h.alloc a).2 fun k' r => owns k' r ∨ (k' = k ∧ r = (h.alloc a).1) where
  valid := by
    rintro k' r (hk | ⟨-, rfl⟩)
    · rw [cells_alloc, List.length_append, List.length_singleton]
      exact Nat.lt_succ_of_lt (ht.valid hk)
    · simp
  apart := by
    rintro k₁ k₂ r (h₁ | ⟨rfl, rfl⟩) (h₂ | ⟨rfl, h₂⟩)
    · exact ht.apart h₁ h₂
    · exact absurd (ht.valid h₁) (by simp [h₂])
    · exact absurd (ht.valid h₂) (by simp)
    · rfl

end Tidy

section
variable {α κ : Type} [Ord κ] [TransOrd κ]

/-- The object a map has for a key. -/
def lookup (h : Heap α) (m : Fmap κ Ref) (k : κ) : Option α := (m[k]?).bind h.read

section
variable {h : Heap α} {m : Fmap κ Ref} {k : κ}

theorem lookup_eq_none (hm : m[k]? = none) :
    h.lookup m k = none := by rw [lookup, hm, Option.bind_none]

theorem lookup_eq_read (hm : m[k]? = some r) :
    h.lookup m k = h.read r := by rw [lookup, hm, Option.bind_some]

theorem lookup_write_ne (hm : m[k]? ≠ some r) (a : α) :
    (h.write r a).lookup m k = h.lookup m k := by
  cases hk : m[k]? with
  | none => rw [lookup_eq_none hk, lookup_eq_none hk]
  | some r' =>
    rw [lookup_eq_read hk, lookup_eq_read hk, read_write_ne]
    rintro rfl
    exact hm hk

theorem lookup_alloc (hm : ∀ r, m[k]? = some r → r < h.cells.length) (a : α) :
    (h.alloc a).2.lookup m k = h.lookup m k := by
  cases hk : m[k]? with
  | none => rw [lookup_eq_none hk, lookup_eq_none hk]
  | some r => rw [lookup_eq_read hk, lookup_eq_read hk, read_alloc (hm r hk)]

theorem lookup_isSome (hm : m[k]? = some r) (hr : r < h.cells.length) :
    ∃ a, h.lookup m k = some a := by
  rw [lookup_eq_read hm]
  exact read_isSome hr

end

end

/-! ## Copies of whole maps -/

section
variable {α κ : Type} [Ord κ] [TransOrd κ]

/-- The objects of a map by value: a deep copy that nobody can reach. -/
def values (h : Heap α) (m : Fmap κ Ref) : Fmap κ α := m.filterMap fun _ r => h.read r

def allocStep (x : Heap α × Fmap κ Ref) (e : κ × α) : Heap α × Fmap κ Ref :=
  ((x.1.alloc e.2).2, x.2.insert e.1 (x.1.alloc e.2).1)

/-- New objects for all the values of a map. -/
def allocAll (h : Heap α) (m : Fmap κ α) : Heap α × Fmap κ Ref := m.toList.foldl allocStep (h, ∅)

theorem getElem?_values [LawfulEqOrd κ] (h : Heap α) (m : Fmap κ Ref) (k : κ) :
    (h.values m)[k]? = h.lookup m k := getElem?_filterMap'

theorem cells_foldl_allocStep (l : List (κ × α)) (x : Heap α × Fmap κ Ref) :
    (l.foldl allocStep x).1.cells = x.1.cells ++ l.map Prod.snd := by
  induction l generalizing x with
  | nil => simp
  | cons e l ih => rw [List.foldl_cons, ih]; simp [allocStep]

/-- Every pointer of the result is an old one, or leads to the new object
of its key. -/
theorem getElem?_foldl_allocStep [LawfulEqOrd κ] {l : List (κ × α)} (hnd : (l.map Prod.fst).Nodup) :
    ∀ {x : Heap α × Fmap κ Ref} {k : κ} {r : Ref}, (l.foldl allocStep x).2[k]? = some r ↔
      (k ∉ l.map Prod.fst ∧ x.2[k]? = some r) ∨
        ∃ i a, l[i]? = some (k, a) ∧ r = x.1.cells.length + i := by
  induction l with
  | nil => intro x k r; simp
  | cons e l ih =>
    intro x k r
    obtain ⟨hnotin, hnd⟩ := List.nodup_cons.mp hnd
    rw [List.foldl_cons, ih hnd]
    simp only [allocStep, cells_alloc, fst_alloc, List.length_append, List.length_singleton,
      List.map_cons, List.mem_cons, not_or]
    constructor
    · rintro (⟨hk, hr⟩ | ⟨i, a, hi, rfl⟩)
      · by_cases hek : e.1 = k
        · subst hek
          rw [Fmap.getElem?_insert_self] at hr
          exact .inr ⟨0, e.2, rfl, (Option.some.inj hr).symm⟩
        · rw [Fmap.getElem?_insert_ne _ _ hek] at hr
          exact .inl ⟨⟨Ne.symm hek, hk⟩, hr⟩
      · exact .inr ⟨i + 1, a, hi, by rw [Nat.add_assoc, Nat.add_comm 1]⟩
    · rintro (⟨⟨hek, hk⟩, hr⟩ | ⟨i, a, hi, rfl⟩)
      · exact .inl ⟨hk, by rw [Fmap.getElem?_insert_ne _ _ (Ne.symm hek), hr]⟩
      · cases i with
        | zero =>
          obtain rfl : e = (k, a) := by simpa using hi
          exact .inl ⟨hnotin, by rw [Fmap.getElem?_insert_self, Nat.add_zero]⟩
        | succ i => exact .inr ⟨i, a, hi, by rw [Nat.add_assoc, Nat.add_comm 1]⟩

theorem getElem?_allocAll [LawfulEqOrd κ] {h : Heap α} {m : Fmap κ α} {k : κ} :
    (h.allocAll m).2[k]? = some r ↔
      ∃ i a, m.toList[i]? = some (k, a) ∧ r = h.cells.length + i := by
  have hnd : (m.toList.map Prod.fst).Nodup := by
    rw [map_fst_toList_eq_keys]
    exact nodup_keys
  rw [allocAll, getElem?_foldl_allocStep hnd]
  simp

theorem cells_allocAll (h : Heap α) (m : Fmap κ α) :
    (h.allocAll m).1.cells = h.cells ++ m.toList.map Prod.snd := cells_foldl_allocStep _ _

theorem lookup_allocAll [LawfulEqOrd κ] (h : Heap α) (m : Fmap κ α) (k : κ) :
    (h.allocAll m).1.lookup (h.allocAll m).2 k = m[k]? := by
  have hread : ∀ {i : Nat} {a : α}, m.toList[i]? = some (k, a) →
      (h.allocAll m).1.read (h.cells.length + i) = some a := by
    intro i a hi
    rw [read, cells_allocAll, List.getElem?_append_right (by omega), Nat.add_sub_cancel_left,
      List.getElem?_map, hi]
    rfl
  cases hr : (h.allocAll m).2[k]? with
  | some r =>
    obtain ⟨i, a, hi, rfl⟩ := getElem?_allocAll.mp hr
    rw [lookup_eq_read hr, hread hi]
    exact (mem_toList_iff_getElem?_eq_some.mp (List.mem_of_getElem? hi)).symm
  | none =>
    rw [lookup_eq_none hr]
    cases hk : m[k]? with
    | none => rfl
    | some a =>
      obtain ⟨i, hi⟩ := List.mem_iff_getElem?.mp
        (mem_toList_iff_getElem?_eq_some.mpr hk)
      rw [getElem?_allocAll.mpr ⟨i, a, hi, rfl⟩] at hr
      cases hr

theorem read_allocAll {h : Heap α} (hr : r < h.cells.length) (m : Fmap κ α) :
    (h.allocAll m).1.read r = h.read r := by
  rw [read, cells_allocAll, List.getElem?_append_left hr, read]

theorem Tidy.allocAll [LawfulEqOrd κ] {h : Heap α} {owns : κ → Ref → Prop} (ht : Tidy h owns)
    (m : Fmap κ α) : Tidy (h.allocAll m).1 fun k r => owns k r ∨ (h.allocAll m).2[k]? = some r := by
  have hlen : (h.allocAll m).1.cells.length = h.cells.length + m.toList.length := by
    rw [cells_allocAll, List.length_append, List.length_map]
  refine ⟨?_, ?_⟩
  · rintro k r (hk | hk)
    · rw [hlen]
      exact Nat.lt_add_right _ (ht.valid hk)
    · obtain ⟨i, a, hi, rfl⟩ := getElem?_allocAll.mp hk
      rw [hlen]
      exact Nat.add_lt_add_left (List.getElem?_eq_some_iff.mp hi).1 _
  · rintro k k' r (hk | hk) (hk' | hk')
    · exact ht.apart hk hk'
    · obtain ⟨i, a, hi, rfl⟩ := getElem?_allocAll.mp hk'
      exact absurd (ht.valid hk) (Nat.not_lt.mpr (Nat.le_add_right _ _))
    · obtain ⟨i, a, hi, rfl⟩ := getElem?_allocAll.mp hk
      exact absurd (ht.valid hk') (Nat.not_lt.mpr (Nat.le_add_right _ _))
    · obtain ⟨i, a, hi, rfl⟩ := getElem?_allocAll.mp hk
      obtain ⟨j, b, hj, hij⟩ := getElem?_allocAll.mp hk'
      obtain rfl : i = j := Nat.add_left_cancel hij
      rw [hi] at hj
      exact (Prod.mk.inj (Option.some.inj hj)).1

end

end Heap

end Qau
