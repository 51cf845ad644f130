import Mathlib

/-!
# Ordered finite maps

Go maps, and the key-value stores under them, are `Std.ExtTreeMap`s: they
are equal as soon as they agree at every key, and `toList` lists the
entries in key order. This module has the few facts the library states
with `compare` in the form the proofs use them, with equality of keys.
-/

namespace Qau

open Std (ExtTreeMap TransOrd LawfulEqOrd)

/-- A finite map with its keys in order. -/
abbrev Fmap (κ ν : Type) [Ord κ] := ExtTreeMap κ ν

namespace Fmap

variable {κ ν : Type} [Ord κ] [TransOrd κ] [LawfulEqOrd κ] {k a : κ} {m : Fmap κ ν}

theorem getElem?_insert [DecidableEq κ] (m : Fmap κ ν) (k a : κ) (v : ν) :
    (m.insert k v)[a]? = if k = a then some v else m[a]? := by
  rw [ExtTreeMap.getElem?_insert]
  simp only [Std.compare_eq_iff_eq]

theorem getElem?_erase [DecidableEq κ] (m : Fmap κ ν) (k a : κ) :
    (m.erase k)[a]? = if k = a then none else m[a]? := by
  rw [ExtTreeMap.getElem?_erase]
  simp only [Std.compare_eq_iff_eq]

@[simp] theorem getElem?_insert_self (m : Fmap κ ν) (k : κ) (v : ν) :
    (m.insert k v)[k]? = some v := by
  classical rw [getElem?_insert, if_pos rfl]

theorem getElem?_insert_ne (m : Fmap κ ν) (v : ν) (h : k ≠ a) : (m.insert k v)[a]? = m[a]? := by
  classical rw [getElem?_insert, if_neg h]

@[simp] theorem getElem?_erase_self (m : Fmap κ ν) (k : κ) : (m.erase k)[k]? = none := by
  classical rw [getElem?_erase, if_pos rfl]

theorem getElem?_erase_ne (m : Fmap κ ν) (h : k ≠ a) : (m.erase k)[a]? = m[a]? := by
  classical rw [getElem?_erase, if_neg h]

theorem erase_of_getElem?_eq_none (h : m[k]? = none) : m.erase k = m := by
  refine ExtTreeMap.ext_getElem? fun a => ?_
  by_cases hk : k = a
  · subst hk
    rw [getElem?_erase_self, h]
  · rw [getElem?_erase_ne _ hk]

theorem erase_insert_of_getElem?_eq_none (v : ν) (h : m[k]? = none) :
    (m.insert k v).erase k = m := by
  refine ExtTreeMap.ext_getElem? fun a => ?_
  by_cases hk : k = a
  · subst hk
    rw [getElem?_erase_self, h]
  · rw [getElem?_erase_ne _ hk, getElem?_insert_ne _ _ hk]

theorem insert_of_getElem?_eq_some {v : ν} (h : m[k]? = some v) : m.insert k v = m := by
  refine ExtTreeMap.ext_getElem? fun a => ?_
  by_cases hk : k = a
  · subst hk
    rw [getElem?_insert_self, h]
  · rw [getElem?_insert_ne _ _ hk]

theorem ofList_toList (m : Fmap κ ν) : ExtTreeMap.ofList m.toList = m := by
  refine ExtTreeMap.ext_getElem? fun k => ?_
  cases hk : m[k]? with
  | some v =>
    exact ExtTreeMap.getElem?_ofList_of_mem Std.ReflCmp.compare_self
      ExtTreeMap.distinct_keys_toList
      (ExtTreeMap.mem_toList_iff_getElem?_eq_some.mpr hk)
  | none =>
    classical
    refine ExtTreeMap.getElem?_ofList_of_contains_eq_false ?_
    rw [Bool.eq_false_iff, ne_eq, List.contains_iff_mem, List.mem_map]
    rintro ⟨⟨k', v⟩, hmem, rfl⟩
    rw [ExtTreeMap.mem_toList_iff_getElem?_eq_some.mp hmem] at hk
    cases hk

theorem foldl_insert_toList (m : Fmap κ ν) :
    m.toList.foldl (fun m e => m.insert e.1 e.2) (∅ : Fmap κ ν) = m := by
  have h := ofList_toList m
  rwa [ExtTreeMap.ofList_eq_foldl] at h

end Fmap

/-! ## The order of `range`

Go visits the entries of a map in no fixed order. What a loop over a map
does is modelled for every order: a `RangeOrder` picks one for each set of
keys. -/

theorem map_filterMap_sublist {α β γ : Type} {g : α → Option β} {f : β → γ} {k : α → γ}
    (h : ∀ a b, g a = some b → f b = k a) (l : List α) :
    ((l.filterMap g).map f).Sublist (l.map k) := by
  induction l with
  | nil => exact .slnil
  | cons a l ih =>
    rw [List.filterMap_cons, List.map_cons]
    split
    · exact ih.cons (k a)
    · next b hb =>
      rw [List.map_cons, h a b hb]
      exact ih.cons_cons (k a)

structure RangeOrder (κ : Type) where
  order : List κ → List κ
  perm : ∀ l, (order l).Perm l

/-- Maps visited in key order. -/
def RangeOrder.sorted (κ : Type) : RangeOrder κ := ⟨id, fun l => .refl l⟩

namespace Fmap

variable {κ ν : Type} [Ord κ] [TransOrd κ]

/-- The entries in the order they are visited. -/
def range (o : RangeOrder κ) (m : Fmap κ ν) : List (κ × ν) :=
  (o.order m.keys).filterMap fun k => (m[k]?).map fun v => (k, v)

theorem nodup_range (o : RangeOrder κ) (m : Fmap κ ν) : ((m.range o).map Prod.fst).Nodup := by
  have hnd : (o.order m.keys).Nodup := (o.perm _).nodup_iff.mpr ExtTreeMap.nodup_keys
  have hsub := map_filterMap_sublist (f := Prod.fst) (k := id)
    (g := fun k => (m[k]?).map fun v => (k, v)) (fun a b hb => ?_) (o.order m.keys)
  · rw [List.map_id] at hsub
    exact hnd.sublist hsub
  · obtain ⟨v, -, rfl⟩ := Option.map_eq_some_iff.mp hb
    rfl

variable [LawfulEqOrd κ]

theorem mem_range {o : RangeOrder κ} {m : Fmap κ ν} {e : κ × ν} :
    e ∈ m.range o ↔ m[e.1]? = some e.2 := by
  obtain ⟨k, v⟩ := e
  simp only [range, List.mem_filterMap, Option.map_eq_some_iff, Prod.mk.injEq]
  constructor
  · rintro ⟨a, -, w, hw, rfl, rfl⟩
    exact hw
  · intro h
    refine ⟨k, (o.perm _).mem_iff.mpr ?_, v, h, rfl, rfl⟩
    rw [ExtTreeMap.mem_keys, ← ExtTreeMap.isSome_getElem?_iff_mem, h]
    rfl

end Fmap

end Qau
