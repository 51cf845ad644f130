import Qau.PriorityHeap
import Qau.Fmap

/-!
# Heaps of slices

Two implementations of the heap interface over a list of items: the plain
one, and one that also keeps a map from the key of an item to its position.
A heap operation on the second is the same operation on the first, and it
keeps the map exact (`Exact`).
-/

namespace Qau

open Std (TransOrd LawfulEqOrd)
open HeapInterface List

section
variable {α : Type}

/-- The items at `i` and `j` exchanged. -/
def swapItems (l : List α) (i j : Nat) : List α :=
  match l[i]?, l[j]? with
  | some a, some b => (l.set i b).set j a
  | _, _ => l

/-- A slice, with the items compared by `lt`. -/
def sliceHeap (lt : α → α → Bool) : HeapInterface (List α) α where
  len := List.length
  less l i j :=
    match l[i]?, l[j]? with
    | some a, some b => lt a b
    | _, _ => false
  swap := swapItems
  push l x := l ++ [x]
  pop l := (l.getLast?, l.dropLast)

/-- `lt` is a strict weak order of the items of a list. -/
structure RanksOn (lt : α → α → Bool) (l : List α) : Prop where
  asymm : ∀ a ∈ l, ∀ b ∈ l, lt a b = true → lt b a = false
  trans : ∀ a ∈ l, ∀ b ∈ l, ∀ c ∈ l, lt a b = false → lt b c = false → lt a c = false

variable {lt : α → α → Bool} {l l' : List α} {i j : Nat}

theorem RanksOn.subset (h : RanksOn lt l) (hsub : ∀ a ∈ l', a ∈ l) : RanksOn lt l' where
  asymm a ha b hb := h.asymm a (hsub a ha) b (hsub b hb)
  trans a ha b hb c hc := h.trans a (hsub a ha) b (hsub b hb) c (hsub c hc)

/-! ## Exchange of two items -/

theorem swapItems_eq (hi : i < l.length) (hj : j < l.length) :
    swapItems l i j = (l.set i l[j]).set j l[i] := by
  rw [swapItems, List.getElem?_eq_getElem hi, List.getElem?_eq_getElem hj]

@[simp] theorem length_swapItems (l : List α) (i j : Nat) :
    (swapItems l i j).length = l.length := by
  unfold swapItems
  split
  · rw [List.length_set, List.length_set]
  · rfl

theorem getElem?_swapItems (hi : i < l.length) (hj : j < l.length) (k : Nat) :
    (swapItems l i j)[k]? = l[Equiv.swap i j k]? := by
  rw [swapItems_eq hi hj, Equiv.swap_apply_def]
  by_cases hkj : k = j
  · subst hkj
    rw [List.getElem?_set_self (by rwa [List.length_set])]
    by_cases hki : k = i
    · subst hki; rw [if_pos rfl, List.getElem?_eq_getElem hi]
    · rw [if_neg hki, if_pos rfl, List.getElem?_eq_getElem hi]
  · rw [List.getElem?_set_ne (Ne.symm hkj)]
    by_cases hki : k = i
    · subst hki
      rw [List.getElem?_set_self hi, if_pos rfl, List.getElem?_eq_getElem hj]
    · rw [List.getElem?_set_ne (Ne.symm hki), if_neg hki, if_neg hkj]

theorem swapItems_perm (l : List α) (i j : Nat) : (swapItems l i j).Perm l := by
  by_cases hi : i < l.length
  · by_cases hj : j < l.length
    · rw [swapItems_eq hi hj]
      exact List.set_set_perm hi hj
    · rw [swapItems, List.getElem?_eq_none (not_lt.mp hj)]
      cases l[i]? <;> exact .refl l
  · rw [swapItems, List.getElem?_eq_none (not_lt.mp hi)]

/-! ## The plain slice -/

theorem sliceHeap_lawful (lt : α → α → Bool) : (sliceHeap lt).Lawful where
  len_swap := length_swapItems
  less_swap {l i j a b} hi hj _ _ := by
    simp only [sliceHeap] at hi hj ⊢
    rw [getElem?_swapItems hi hj, getElem?_swapItems hi hj]
  len_push l x := by simp [sliceHeap]
  less_push {l x a b} ha hb := by
    simp only [sliceHeap] at ha hb ⊢
    rw [List.getElem?_append_left ha, List.getElem?_append_left hb]
  len_pop l := by simp [sliceHeap]
  less_pop {l a b} ha hb := by
    simp only [sliceHeap] at ha hb ⊢
    rw [List.getElem?_dropLast, if_pos ha, List.getElem?_dropLast, if_pos hb]

theorem RanksOn.ranked (h : RanksOn lt l) : Ranked l.length ((sliceHeap lt).less l) where
  asymm {i j} hi hj := by
    simp only [sliceHeap, List.getElem?_eq_getElem hi, List.getElem?_eq_getElem hj]
    exact h.asymm _ (List.getElem_mem hi) _ (List.getElem_mem hj)
  trans {i j k} hi hj hk := by
    simp only [sliceHeap, List.getElem?_eq_getElem hi, List.getElem?_eq_getElem hj,
      List.getElem?_eq_getElem hk]
    exact h.trans _ (List.getElem_mem hi) _ (List.getElem_mem hj) _ (List.getElem_mem hk)

theorem heapPush_perm (l : List α) (x : α) : ((sliceHeap lt).heapPush l x).Perm (x :: l) :=
  (up_preserves (P := fun t : List α => t.Perm (l ++ [x])) (fun _ _ h => (swapItems_perm _ _ _).trans h)
    (Nat.lt_succ_self _) (List.Perm.refl _)).trans (List.perm_append_singleton x l)

/-- The list ends in `a` and has the items of `l`. -/
def EndsIn (l : List α) (a : α) (t : List α) : Prop :=
  t.Perm l ∧ t[l.length - 1]? = some a

theorem EndsIn.swap {a : α} {t : List α} (hi : i < l.length - 1) (hj : j < l.length - 1)
    (h : EndsIn l a t) : EndsIn l a (swapItems t i j) := by
  have hlen := h.1.length_eq
  refine ⟨(swapItems_perm t i j).trans h.1, ?_⟩
  rw [getElem?_swapItems (by omega) (by omega), Equiv.swap_apply_of_ne_of_ne hi.ne' hj.ne']
  exact h.2

theorem endsIn_swapItems {a : α} (h : l[i]? = some a) :
    EndsIn l a (swapItems l i (l.length - 1)) := by
  obtain ⟨hi, rfl⟩ := List.getElem?_eq_some_iff.mp h
  refine ⟨swapItems_perm _ _ _, ?_⟩
  rw [getElem?_swapItems hi (by omega), Equiv.swap_apply_right, List.getElem?_eq_getElem hi]

theorem EndsIn.pop {a : α} {t : List α} (h : EndsIn l a t) :
    ((sliceHeap lt).pop t).1 = some a ∧ (a :: ((sliceHeap lt).pop t).2).Perm l := by
  have hlast : t.getLast? = some a := by
    rw [List.getLast?_eq_getElem?, h.1.length_eq]; exact h.2
  refine ⟨hlast, ?_⟩
  have hsplit : t.dropLast ++ [a] = t := by
    obtain ⟨t, rfl⟩ := List.getLast?_eq_some_iff.mp hlast
    rw [List.dropLast_concat]
  calc a :: t.dropLast
    _ ~ t.dropLast ++ [a] := (List.perm_append_singleton a _).symm
    _ ~ l := hsplit.symm ▸ h.1

theorem heapRemove_spec {a : α} (h : l[i]? = some a) : ((sliceHeap lt).heapRemove l i).1 = some a ∧
      (a :: ((sliceHeap lt).heapRemove l i).2).Perm l := by
  obtain ⟨hi, -⟩ := List.getElem?_eq_some_iff.mp h
  refine EndsIn.pop (extract_preserves (fun ha hb hP => hP.swap ha hb) hi (fun hlast => ?_)
    fun _ => endsIn_swapItems h)
  subst hlast
  exact ⟨.refl l, h⟩

theorem heapPop_spec {a : α} (h : l[0]? = some a) :
    ((sliceHeap lt).heapPop l).1 = some a ∧ (a :: ((sliceHeap lt).heapPop l).2).Perm l :=
  EndsIn.pop (down_preserves (P := EndsIn l a) (fun ha hb hP => hP.swap ha hb) le_rfl
    (endsIn_swapItems h))

end

/-! ## The slice with positions -/

structure IndexedItems (α κ : Type) [Ord κ] where
  items : List α := []
  index : Fmap κ Nat := ∅

section
variable {α κ : Type} [Ord κ] [TransOrd κ]

/-- A slice that keeps the position of every item under its key. -/
def indexedHeap (key : α → κ) (lt : α → α → Bool) : HeapInterface (IndexedItems α κ) α where
  len s := s.items.length
  less s := (sliceHeap lt).less s.items
  swap s i j :=
    match s.items[i]?, s.items[j]? with
    | some a, some b =>
      { items := swapItems s.items i j, index := (s.index.insert (key b) i).insert (key a) j }
    | _, _ => s
  push s x := { items := s.items ++ [x], index := s.index.insert (key x) s.items.length }
  pop s :=
    match s.items.getLast? with
    | some a => (some a, { items := s.items.dropLast, index := s.index.erase (key a) })
    | none => (none, s)

theorem indexedHeap_hom (key : α → κ) (lt : α → α → Bool) :
    Hom (indexedHeap key lt) (sliceHeap lt) IndexedItems.items where
  len _ := rfl
  less _ _ _ := rfl
  swap s i j := by
    simp only [indexedHeap, sliceHeap]
    split
    · rfl
    · next h =>
      rw [swapItems]
      split
      · next ha hb => exact absurd hb (h _ _ ha)
      · rfl
  push _ _ := rfl
  pop s := by
    simp only [indexedHeap, sliceHeap]
    split
    · rfl
    · next h => rw [List.getLast?_eq_none_iff.mp h]; rfl

/-- The positions are those of the items, one for each key. -/
def Exact (key : α → κ) (s : IndexedItems α κ) : Prop :=
  ∀ k i, s.index[k]? = some i ↔ ∃ a, s.items[i]? = some a ∧ key a = k

namespace Exact
variable {key : α → κ} {lt : α → α → Bool} {s : IndexedItems α κ}

theorem eq_of_key (h : Exact key s) {i j : Nat} {a b : α} (ha : s.items[i]? = some a)
    (hb : s.items[j]? = some b) (hk : key a = key b) : i = j := by
  have hi := (h (key b) i).mpr ⟨a, ha, hk⟩
  have hj := (h (key b) j).mpr ⟨b, hb, rfl⟩
  exact Option.some.inj (hi.symm.trans hj)

variable [LawfulEqOrd κ] [DecidableEq κ]

theorem swap (h : Exact key s) (i j : Nat) : Exact key ((indexedHeap key lt).swap s i j) := by
  simp only [indexedHeap]
  split
  · next a b ha hb =>
    obtain ⟨hi, -⟩ := List.getElem?_eq_some_iff.mp ha
    obtain ⟨hj, -⟩ := List.getElem?_eq_some_iff.mp hb
    intro k p
    have hidx : ((s.index.insert (key b) i).insert (key a) j)[k]? =
        s.index[k]?.map (Equiv.swap i j) := by
      rw [Fmap.getElem?_insert, Fmap.getElem?_insert]
      by_cases hak : key a = k
      · rw [if_pos hak, (h k i).mpr ⟨a, ha, hak⟩, Option.map_some, Equiv.swap_apply_left]
      · rw [if_neg hak]
        by_cases hbk : key b = k
        · rw [if_pos hbk, (h k j).mpr ⟨b, hb, hbk⟩, Option.map_some, Equiv.swap_apply_right]
        · rw [if_neg hbk]
          cases hk : s.index[k]? with
          | none => rfl
          | some q =>
            obtain ⟨c, hc, hck⟩ := (h k q).mp hk
            have hqi : q ≠ i := by
              rintro rfl
              rw [ha, Option.some_inj] at hc
              exact hak (hc ▸ hck)
            have hqj : q ≠ j := by
              rintro rfl
              rw [hb, Option.some_inj] at hc
              exact hbk (hc ▸ hck)
            rw [Option.map_some, Equiv.swap_apply_of_ne_of_ne hqi hqj]
    rw [hidx, getElem?_swapItems hi hj, ← h k]
    cases s.index[k]? with
    | none => simp
    | some q => rw [Option.map_some, Option.some_inj, Option.some_inj, Equiv.swap_apply_eq_iff]
  · exact h

theorem push (h : Exact key s) {x : α} (hx : s.index[key x]? = none) :
    Exact key ((indexedHeap key lt).push s x) := by
  intro k p
  simp only [indexedHeap]
  rw [Fmap.getElem?_insert, getElem?_append]
  by_cases hk : key x = k
  · rw [if_pos hk, Option.some_inj]
    constructor
    · rintro rfl
      exact ⟨x, by simp, hk⟩
    · rintro ⟨a, ha, hak⟩
      split_ifs at ha with hp
      · have := (h k p).mpr ⟨a, ha, hak⟩
        rw [← hk, hx] at this
        exact absurd this (by simp)
      · have := (List.getElem?_eq_some_iff.mp ha).1
        rw [List.length_singleton] at this
        omega
  · rw [if_neg hk, h k p]
    constructor
    · rintro ⟨a, ha, hak⟩
      rw [if_pos (List.getElem?_eq_some_iff.mp ha).1]
      exact ⟨a, ha, hak⟩
    · rintro ⟨a, ha, hak⟩
      split_ifs at ha with hp
      · exact ⟨a, ha, hak⟩
      · have hmem := List.mem_of_getElem? ha
        rw [List.mem_singleton] at hmem
        exact absurd (hmem ▸ hak) hk

theorem pop (h : Exact key s) : Exact key ((indexedHeap key lt).pop s).2 := by
  simp only [indexedHeap]
  split
  · next a ha =>
    intro k p
    dsimp only
    rw [List.getLast?_eq_getElem?] at ha
    rw [Fmap.getElem?_erase, List.getElem?_dropLast]
    by_cases hk : key a = k
    · rw [if_pos hk]
      constructor
      · intro hn; exact absurd hn (by simp)
      · rintro ⟨b, hb, hbk⟩
        split_ifs at hb with hp
        exact absurd (h.eq_of_key hb ha (hbk.trans hk.symm)) hp.ne
    · rw [if_neg hk, h k p]
      constructor
      · rintro ⟨b, hb, hbk⟩
        have hlt := (List.getElem?_eq_some_iff.mp hb).1
        have hne : p ≠ s.items.length - 1 := by
          rintro rfl
          rw [ha, Option.some_inj] at hb
          exact hk (hb ▸ hbk)
        rw [if_pos (by omega)]
        exact ⟨b, hb, hbk⟩
      · rintro ⟨b, hb, hbk⟩
        split_ifs at hb
        exact ⟨b, hb, hbk⟩
  · exact h

theorem heapPush (h : Exact key s) {x : α} (hx : s.index[key x]? = none) :
    Exact key ((indexedHeap key lt).heapPush s x) :=
  up_preserves (fun _ _ h => h.swap _ _) (Nat.lt_succ_self _) (h.push hx)

theorem heapRemove (h : Exact key s) {i : Nat} (hi : i < s.items.length) :
    Exact key ((indexedHeap key lt).heapRemove s i).2 :=
  pop (extract_preserves (fun _ _ h => h.swap _ _) hi (fun _ => h) fun _ => h.swap _ _)

end Exact

end

end Qau
