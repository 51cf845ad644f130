import Qau.Fmap

/-!
# Writes to a finite map

A batch of a key-value store is a list of writes, each a new value or a
deletion. `writeAll` applies them in order; what a key holds afterwards is
decided by the last write to it (`getElem?_writeAll`), so that two batches
have the same effect as soon as they agree on the last write of every key.
-/

namespace Qau

open Std (TransOrd LawfulEqOrd)

/-- A value to store under a key, or `none` to delete it. -/
abbrev Write (κ ν : Type) := κ × Option ν

section
variable {κ ν : Type} [Ord κ] [TransOrd κ]

def writeOne (m : Fmap κ ν) (w : Write κ ν) : Fmap κ ν :=
  match w.2 with
  | some v => m.insert w.1 v
  | none => m.erase w.1

def writeAll (m : Fmap κ ν) (ws : List (Write κ ν)) : Fmap κ ν := ws.foldl writeOne m

theorem writeAll_append (m : Fmap κ ν) (ws vs : List (Write κ ν)) :
    writeAll m (ws ++ vs) = writeAll (writeAll m ws) vs := List.foldl_append

end

/-- The last write to a key in a batch. -/
def lastWrite {κ ν : Type} [DecidableEq κ] : List (Write κ ν) → κ → Option (Option ν)
  | [], _ => none
  | w :: ws, k => (lastWrite ws k).or (if w.1 = k then some w.2 else none)

section
variable {κ ν : Type} [DecidableEq κ]

@[simp] theorem lastWrite_nil (k : κ) : lastWrite ([] : List (Write κ ν)) k = none := rfl

theorem lastWrite_cons (w : Write κ ν) (ws : List (Write κ ν)) (k : κ) :
    lastWrite (w :: ws) k = (lastWrite ws k).or (if w.1 = k then some w.2 else none) := rfl

theorem lastWrite_eq_none {ws : List (Write κ ν)} {k : κ} :
    lastWrite ws k = none ↔ ∀ w ∈ ws, w.1 ≠ k := by
  induction ws with
  | nil => simp
  | cons w ws ih =>
    rw [lastWrite_cons, Option.or_eq_none_iff, ih, List.forall_mem_cons]
    constructor
    · rintro ⟨h, hw⟩
      refine ⟨fun hk => ?_, h⟩
      rw [if_pos hk] at hw
      cases hw
    · rintro ⟨hk, h⟩
      exact ⟨h, if_neg hk⟩

theorem mem_of_lastWrite {ws : List (Write κ ν)} {k : κ} {v : Option ν}
    (h : lastWrite ws k = some v) : (k, v) ∈ ws := by
  induction ws with
  | nil => cases h
  | cons w ws ih =>
    rw [lastWrite_cons] at h
    rcases Option.or_eq_some_iff.mp h with h | ⟨-, h⟩
    · exact List.mem_cons_of_mem _ (ih h)
    · obtain ⟨hk, hv⟩ := Option.ite_none_right_eq_some.mp h
      rw [← hk, ← Option.some.inj hv]
      exact List.mem_cons_self ..

/-- In a batch that writes no key twice every write is the last one. -/
theorem lastWrite_of_mem {ws : List (Write κ ν)} (hnd : (ws.map Prod.fst).Nodup) {k : κ}
    {v : Option ν} (h : (k, v) ∈ ws) : lastWrite ws k = some v := by
  induction ws with
  | nil => cases h
  | cons w ws ih =>
    rw [List.map_cons, List.nodup_cons] at hnd
    rw [lastWrite_cons]
    rcases List.mem_cons.mp h with rfl | h
    · have hnone : lastWrite ws k = none :=
        lastWrite_eq_none.mpr fun w hw hk => hnd.1 (List.mem_map.mpr ⟨w, hw, hk⟩)
      rw [hnone, Option.none_or, if_pos rfl]
    · rw [ih hnd.2 h, Option.some_or]

theorem lastWrite_iff_mem {ws : List (Write κ ν)} (hnd : (ws.map Prod.fst).Nodup) {k : κ}
    {v : Option ν} : lastWrite ws k = some v ↔ (k, v) ∈ ws :=
  ⟨mem_of_lastWrite, lastWrite_of_mem hnd⟩

end

section
variable {κ ν : Type} [Ord κ] [TransOrd κ] [LawfulEqOrd κ] [DecidableEq κ]

theorem getElem?_writeOne (m : Fmap κ ν) (w : Write κ ν) (k : κ) :
    (writeOne m w)[k]? = if w.1 = k then w.2 else m[k]? := by
  obtain ⟨a, v⟩ := w
  cases v with
  | some v => exact Fmap.getElem?_insert m a k v
  | none => exact Fmap.getElem?_erase m a k

theorem getElem?_writeAll (m : Fmap κ ν) (ws : List (Write κ ν)) (k : κ) :
    (writeAll m ws)[k]? = (lastWrite ws k).getD m[k]? := by
  induction ws generalizing m with
  | nil => rfl
  | cons w ws ih =>
    rw [writeAll, List.foldl_cons, ← writeAll, ih, getElem?_writeOne, lastWrite_cons]
    cases lastWrite ws k with
    | some v => rfl
    | none =>
      rw [Option.none_or]
      split <;> rfl

end

end Qau
