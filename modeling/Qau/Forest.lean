import Mathlib

/-!
# Forests given by parents

A forest is a partial function to parents; with a rank that falls from child
to parent there are no cycles. This module has descent along parents, seen
from either end, and what a new leaf or a cut does to it.
-/

namespace Qau.Forest

variable {α : Type} {parent parent' : α → Option α} {a c d p : α}

/-- `d` is `a` or comes from it by children. -/
def Descends (parent : α → Option α) (d a : α) : Prop :=
  Relation.ReflTransGen (fun x y => parent x = some y) d a

namespace Descends

theorem refl (parent : α → Option α) (a : α) : Descends parent a a := Relation.ReflTransGen.refl

theorem up (h : parent d = some p) (hp : Descends parent p a) : Descends parent d a :=
  Relation.ReflTransGen.head h hp

theorem trans (h : Descends parent d c) (h' : Descends parent c a) : Descends parent d a :=
  Relation.ReflTransGen.trans h h'

theorem down (h : Descends parent d c) (hc : parent c = some a) : Descends parent d a :=
  Relation.ReflTransGen.tail h hc

end Descends

theorem descends_iff_parent :
    Descends parent d a ↔ d = a ∨ ∃ p, parent d = some p ∧ Descends parent p a :=
  Relation.ReflTransGen.cases_head_iff.trans (by simp only [Descends])

theorem descends_iff_child :
    Descends parent d a ↔ d = a ∨ ∃ c, parent c = some a ∧ Descends parent d c := by
  refine (Relation.ReflTransGen.cases_tail_iff _ d a).trans ?_
  simp only [Descends, eq_comm, and_comm]

theorem descends_of_root (h : parent d = none) : Descends parent d a ↔ d = a := by
  rw [descends_iff_parent]
  simp [h]

section Rank

variable {rank : α → Nat} (hrank : ∀ c p, parent c = some p → rank p < rank c)
include hrank

theorem Descends.rank_le (h : Descends parent d a) : rank a ≤ rank d := by
  induction h with
  | refl => exact le_rfl
  | tail _ hp ih => exact (hrank _ _ hp).le.trans ih

theorem not_descends_of_parent (h : parent d = some p) : ¬ Descends parent p d := fun hd =>
  absurd (hd.rank_le hrank) (not_le.mpr (hrank d p h))

end Rank

theorem descends_of_leaf {leaf : α} (hsame : ∀ x, x ≠ leaf → parent' x = parent x)
    (hleaf : ∀ x, parent' x ≠ some leaf) (hd : d ≠ leaf) :
    Descends parent' d a ↔ Descends parent d a := by
  constructor
  · intro h
    induction h using Relation.ReflTransGen.head_induction_on with
    | refl => exact .refl _ _
    | head hp _ ih =>
      refine .up ((hsame _ hd).symm.trans hp) (ih fun heq => ?_)
      subst heq
      exact hleaf _ hp
  · intro h
    induction h using Relation.ReflTransGen.head_induction_on with
    | refl => exact .refl _ _
    | head hp _ ih =>
      have hp' := (hsame _ hd).trans hp
      refine .up hp' (ih fun heq => ?_)
      subst heq
      exact hleaf _ hp'

/-- Cutting off what is not kept changes no descent from what is kept, if
children of kept ones are kept. -/
theorem descends_of_cut (keep : α → Prop) (hold : ∀ x y, parent' x = some y → parent x = some y)
    (hnew : ∀ x y, keep y → parent x = some y → parent' x = some y)
    (hclosed : ∀ x y, keep y → parent x = some y → keep x) (ha : keep a) :
    Descends parent' d a ↔ Descends parent d a := by
  constructor
  · exact fun h => Relation.ReflTransGen.mono hold _ _ h
  · intro h
    induction h with
    | refl => exact .refl _ _
    | tail _ hp ih => exact (ih (hclosed _ _ ha hp)).down (hnew _ _ ha hp)

end Qau.Forest
