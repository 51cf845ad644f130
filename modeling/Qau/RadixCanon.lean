import Qau.Radix

/-!
# Canonical radix trees

A tree in which every node branches (`Canon`) is determined by its
entries: `eq_of_find_eq`. `upsert` keeps trees canonical, so any two
sequences of insertions with the same outcome build the same tree. `remove`
does not: it leaves a node behind where the insertion had split a leaf or
a run. `Fits` says that an insertion finds its slot without splitting, and
`remove_upsert` that such an insertion is undone exactly; `Keeps` says that
a removal leaves no node with a single slot behind, and `canon_remove` that
it then keeps the tree canonical.
-/

namespace Qau

open Function

namespace Radix

variable {σ α : Type} [DecidableEq σ] {t a : Radix σ α}

variable {s p : List σ} {f : Option α → α} {c : σ → Radix σ α} {g : α → Option α} {n : Nat}

/-- Every node has at least two occupied slots. -/
def Canon : Radix σ α → Prop
  | .node c => (∀ i, Canon (c i)) ∧ ∃ i j, i ≠ j ∧ c i ≠ .empty ∧ c j ≠ .empty
  | .run _ t => Canon t
  | _ => True

omit [DecidableEq σ] in
theorem canon_wrap (h : Canon t) : Canon (wrap s t) := by
  cases s <;> exact h

theorem canon_branch {x y : σ} (hxy : x ≠ y) {b : Radix σ α} (ha : Canon a) (hb : Canon b)
    (hane : a ≠ .empty) (hbne : b ≠ .empty) : Canon (branch x a y b) := by
  refine ⟨fun i => ?_, x, y, hxy, by simpa [update_of_ne hxy] using hane,
    by simpa using hbne⟩
  by_cases hy : i = y
  · subst hy; simpa using hb
  · rw [update_of_ne hy]
    by_cases hx : i = x
    · subst hx; simpa using ha
    · rw [update_of_ne hx]; trivial

theorem canon_upsert (hwf : WF n t) (hp : p.length = n) (hcan : Canon t) :
    Canon (upsert f t p) := by
  subst hp
  induction hwf using WF.along with
  | empty p hwf => trivial
  | leaf r a p hwf =>
    by_cases hrp : r = p
    · rw [upsert, if_pos hrp]
      trivial
    · obtain ⟨c, x, r', y, p', hxy, rfl, rfl⟩ := exists_fork_of_length hwf hrp
      rw [upsert_leaf_fork hxy]
      exact canon_wrap (canon_branch hxy trivial trivial (by simp) (by simp))
  | node c i p hwf hi ih =>
    obtain ⟨hcc, j, k, hjk, hj, hk⟩ := hcan
    have hocc : ∀ l, c l ≠ .empty → update c i (upsert f (c i) p) l ≠ .empty :=
      (forall_update_iff c fun l t => c l ≠ .empty → t ≠ .empty).mpr
        ⟨fun _ => upsert_ne_empty f (c i) p, fun _ _ => id⟩
    refine ⟨?_, j, k, hjk, hocc j hj, hocc k hk⟩
    exact (forall_update_iff c fun _ t => Canon t).mpr ⟨ih (hcc i), fun l _ => hcc l⟩
  | run s t q hwf ht ih =>
    rw [upsert_run_append]
    exact ih hcan
  | leave s t p hwf hstrip =>
    obtain ⟨-, hnode, m, hm, -⟩ := hwf
    obtain ⟨c, x, s', y, p', hxy, rfl, rfl⟩ := exists_fork_of_strip (by omega) hstrip
    rw [upsert_run_fork hxy]
    have ht0 : t ≠ .empty := by rintro rfl; exact hnode
    exact canon_wrap (canon_branch hxy (canon_wrap hcan) trivial (wrap_ne_empty ht0) (by simp))

/-! ## Uniqueness -/

/-- What all paths of a tree start with, as its top node has it. -/
def stem : Radix σ α → List σ
  | .run s _ => s
  | _ => []

/-- Two entries of the tree part right behind the stem. -/
def Forks (n : Nat) (t : Radix σ α) : Prop :=
  ∃ i j p q a b, i ≠ j ∧ (stem t ++ i :: p).length = n ∧ (stem t ++ j :: q).length = n ∧
    find t (stem t ++ i :: p) = some a ∧ find t (stem t ++ j :: q) = some b

theorem forks_node (hwf : WF n (.node c)) (hcan : Canon (.node c)) : Forks n (.node c) := by
  obtain ⟨m, rfl, hc, -⟩ := hwf
  obtain ⟨-, i, j, hij, hi, hj⟩ := hcan
  obtain ⟨p, a, hp, ha⟩ := exists_find (hc i) hi
  obtain ⟨q, b, hq, hb⟩ := exists_find (hc j) hj
  exact ⟨i, j, p, q, a, b, hij, by simp [stem, hp], by simp [stem, hq], ha, hb⟩

theorem forks_run (hwf : WF n (.run s t)) (hcan : Canon (.run s t)) : Forks n (.run s t) := by
  obtain ⟨-, hnode, m, rfl, ht⟩ := hwf
  cases t with
  | node c =>
    obtain ⟨i, j, p, q, a, b, hij, hp, hq, ha, hb⟩ := forks_node ht hcan
    refine ⟨i, j, p, q, a, b, hij, ?_, ?_, ?_, ?_⟩
    · rw [List.length_append, ← hp]; rfl
    · rw [List.length_append, ← hq]; rfl
    · simpa [stem, find] using ha
    · simpa [stem, find] using hb
  | _ => exact hnode.elim

section Forks
variable {t t' : Radix σ α} {n : Nat}

theorem eq_of_find_leaf {r q : List σ} {a b : α} (h : find (.leaf r a) q = some b) : r = q := by
  rw [find] at h
  split at h
  · assumption
  · cases h

section
variable (hf : Forks n t) (h : ∀ q, q.length = n → find t q = find t' q)
include hf h

theorem Forks.ne_empty : t' ≠ .empty := by
  rintro rfl
  obtain ⟨i, j, p, q, a, b, hij, hp, -, ha, -⟩ := hf
  rw [h _ hp] at ha
  cases ha

theorem Forks.ne_leaf (r : List σ) (a : α) : t' ≠ .leaf r a := by
  rintro rfl
  obtain ⟨i, j, p, q, a, b, hij, hp, hq, ha, hb⟩ := hf
  rw [h _ hp] at ha
  rw [h _ hq] at hb
  have heq := (eq_of_find_leaf ha).symm.trans (eq_of_find_leaf hb)
  simp [hij] at heq

/-- A tree with the same entries does not have a longer stem. -/
theorem Forks.stem_le : stem t' <+: stem t := by
  obtain ⟨i, j, p, q, a, b, hij, hp, hq, ha, hb⟩ := hf
  rw [h _ hp] at ha
  rw [h _ hq] at hb
  cases t' with
  | run s u =>
    obtain ⟨p', hp', -⟩ := find_run_eq_some.mp ha
    obtain ⟨q', hq', -⟩ := find_run_eq_some.mp hb
    rcases List.prefix_or_prefix_of_prefix ⟨p', hp'.symm⟩ (List.prefix_append (stem t) (i :: p))
      with hs | ⟨v, hv⟩
    · exact hs
    · rw [← hv, List.append_assoc, List.append_cancel_left_eq] at hp' hq'
      cases v with
      | nil => simp [stem, ← hv]
      | cons k v =>
        have hk := (List.cons.inj hp').1.trans (List.cons.inj hq').1.symm
        exact absurd hk hij
  | _ => exact List.nil_prefix

end

end Forks

theorem eq_of_find_eq : ∀ {t' : Radix σ α} {n : Nat}, WF n t → WF n t' → Canon t → Canon t' →
      (∀ q, q.length = n → find t q = find t' q) → t = t' := by
  induction t with
  | empty =>
    intro t' n _ hwf' _ _ h
    by_contra hne
    obtain ⟨q, a, hq, hf⟩ := exists_find hwf' (Ne.symm hne)
    rw [← h q hq] at hf
    cases hf
  | leaf r a =>
    intro t' n hwf hwf' _ hcan' h
    have hsymm := fun q hq => (h q hq).symm
    have hr : find t' r = some a := by rw [← h r hwf]; simp [find]
    cases t' with
    | empty => cases hr
    | leaf r' a' =>
      obtain rfl := eq_of_find_leaf hr
      rw [find, if_pos rfl] at hr
      rw [Option.some.inj hr]
    | node c => exact absurd rfl ((forks_node hwf' hcan').ne_leaf hsymm r a)
    | run s u => exact absurd rfl ((forks_run hwf' hcan').ne_leaf hsymm r a)
  | node c ih =>
    intro t' n hwf hwf' hcan hcan' h
    have hf := forks_node hwf hcan
    cases t' with
    | empty => exact absurd rfl (hf.ne_empty h)
    | leaf r' a' => exact absurd rfl (hf.ne_leaf h r' a')
    | node c' =>
      obtain ⟨m, rfl, hc, -⟩ := hwf
      obtain ⟨m', hm, hc', -⟩ := hwf'
      obtain rfl : m = m' := by omega
      congr 1
      funext k
      exact ih k (hc k) (hc' k) (hcan.1 k) (hcan'.1 k) fun q hq => h (k :: q) (by simp [hq])
    | run s u => exact absurd (List.prefix_nil.mp (hf.stem_le h)) hwf'.1
  | run s t ih =>
    intro t' n hwf hwf' hcan hcan' h
    have hsymm := fun q hq => (h q hq).symm
    have hf := forks_run hwf hcan
    cases t' with
    | empty => exact absurd rfl (hf.ne_empty h)
    | leaf r' a' => exact absurd rfl (hf.ne_leaf h r' a')
    | node c' =>
      exact absurd (List.prefix_nil.mp ((forks_node hwf' hcan').stem_le hsymm)) hwf.1
    | run s' u =>
      have h1 : s' <+: s := hf.stem_le h
      have h2 : s <+: s' := (forks_run hwf' hcan').stem_le hsymm
      obtain rfl : s' = s := h1.eq_of_length (le_antisymm h1.length_le h2.length_le)
      obtain ⟨-, -, m, rfl, ht⟩ := hwf
      obtain ⟨-, -, m', hm, hu⟩ := hwf'
      obtain rfl : m = m' := by omega
      congr 1
      refine ih ht hu hcan hcan' fun q hq => ?_
      simpa [find] using h (s' ++ q) (by simp [hq])

/-! ## Insertions that fit -/

/-- The descent along a path ends in a free slot, or in the leaf of that
very path: an insertion there splits nothing. -/
def Fits : Radix σ α → List σ → Prop
  | .empty, _ => True
  | .leaf r _, p => r = p
  | .node _, [] => False
  | .node c, i :: p => Fits (c i) p
  | .run s t, p => ∃ q, p = s ++ q ∧ Fits t q

omit [DecidableEq σ] in
theorem prune_of_occupied (h : ∃ i, c i ≠ .empty) : prune c = .node c := by
  obtain ⟨i, hi⟩ := h
  exact if_neg fun hall => hi (hall i)

/-- An insertion that fits is undone by a removal that takes back what it
wrote. -/
theorem remove_upsert (hwf : WF n t) (hp : p.length = n) (hfit : Fits t p)
    (hg : g (f (find t p)) = find t p) : remove g (upsert f t p) p = t := by
  subst hp
  induction hwf using WF.along with
  | empty p hwf =>
    simp only [find] at hg
    simp [upsert, remove, hg]
  | leaf r a p hwf =>
    obtain rfl : r = p := hfit
    simp only [find, if_true] at hg
    simp [upsert, remove, hg]
  | node c i p hwf hi ih =>
    obtain ⟨-, -, -, hocc⟩ := hwf
    simp only [upsert, remove, update_self, ih hfit hg, update_idem,
      update_eq_self]
    exact prune_of_occupied hocc
  | run s t q hwf ht ih =>
    obtain ⟨q', hq, hfit'⟩ := hfit
    obtain rfl := List.append_cancel_left hq
    rw [upsert_run_append, remove, strip_append]
    simp only [ih hfit' (by simpa [find] using hg)]
    cases t with
    | node c => rfl
    | _ => exact hwf.2.1.elim
  | leave s t p hwf hstrip =>
    obtain ⟨q, rfl, -⟩ := hfit
    simp at hstrip

/-- A removal at the far side of a fork leaves its near side behind a node
of one slot. -/
theorem remove_fork {c : List σ} {x y : σ} (hxy : x ≠ y) (ha : a ≠ .empty) {b : α} (hg : g b = none)
    : remove g (wrap c (branch x a y (.leaf p b))) (c ++ y :: p)
      = wrap c (.node (update (fun _ => .empty) x a)) := by
  have hnode : remove g (branch x a y (.leaf p b)) (y :: p)
      = .node (update (fun _ => .empty) x a) := by
    simp only [branch, remove, update_self, hg, update_idem]
    have hy : update (update (fun _ => .empty) x a) y .empty
        = update (fun _ => Radix.empty) x a := by
      rw [update_comm hxy, update_eq_self]
    rw [hy]
    exact prune_of_occupied ⟨x, by simpa using ha⟩
  cases c with
  | nil => exact hnode
  | cons z c =>
    show remove g (.run (z :: c) (branch x a y (.leaf p b))) _ = _
    simp only [remove, strip_append, hnode]
    rfl

/-! ## Removals that keep the tree canonical -/

/-- No node on the path is left with fewer than two occupied slots. -/
def Keeps (g : α → Option α) : Radix σ α → List σ → Prop
  | .node c, i :: p => Keeps g (c i) p ∧ (remove g (c i) p = .empty →
      ∃ j k, j ≠ k ∧ j ≠ i ∧ k ≠ i ∧ c j ≠ .empty ∧ c k ≠ .empty)
  | .run s t, p => ∀ q, p = s ++ q → Keeps g t q
  | _, _ => True

omit [DecidableEq σ] in
theorem canon_hang (h : Canon t) : Canon (hang s t) := by
  cases t <;> exact h

theorem canon_remove : ∀ {p : List σ}, Canon t → Keeps g t p → Canon (remove g t p) := by
  induction t with
  | empty => intro p _ _; trivial
  | leaf r a =>
    intro p _ _
    simp only [remove]
    split <;> trivial
  | node c ih =>
    intro p hcan hkeep
    cases p with
    | nil => exact hcan
    | cons i p =>
      obtain ⟨hcc, j, k, hjk, hj, hk⟩ := hcan
      obtain ⟨hki, hlone⟩ := hkeep
      rw [remove, prune]
      split
      · trivial
      · refine ⟨(forall_update_iff c fun _ t => Canon t).mpr
          ⟨ih i (hcc i) hki, fun l _ => hcc l⟩, ?_⟩
        by_cases hR : remove g (c i) p = .empty
        · obtain ⟨j, k, hjk, hji, hki, hj, hk⟩ := hlone hR
          exact ⟨j, k, hjk, by rwa [update_of_ne hji],
            by rwa [update_of_ne hki]⟩
        · have hocc : ∀ l, c l ≠ .empty → update c i (remove g (c i) p) l ≠ .empty :=
            (forall_update_iff c fun l t => c l ≠ .empty → t ≠ .empty).mpr
              ⟨fun _ => hR, fun _ _ => id⟩
          exact ⟨j, k, hjk, hocc j hj, hocc k hk⟩
  | run s t ih =>
    intro p hcan hkeep
    simp only [remove]
    split
    · next q hq => exact canon_hang (ih hcan (hkeep q (strip_eq_some.mp hq)))
    · exact hcan

/-- A canonical tree that is more than a leaf is not emptied by one removal. -/
theorem remove_ne_empty_of_canon (hwf : WF n t) (hp : p.length = n) (hcan : Canon t)
    (hne : t ≠ .empty) (hleaf : ∀ r a, t ≠ .leaf r a) : remove g t p ≠ .empty := by
  have hforks : Forks n t := by
    cases t with
    | empty => exact absurd rfl hne
    | leaf r a => exact absurd rfl (hleaf r a)
    | node c => exact forks_node hwf hcan
    | run s t => exact forks_run hwf hcan
  obtain ⟨i, j, q, q', a, a', hij, -, -, hq, hq'⟩ := hforks
  intro hemp
  have hfind := find_remove (g := g) hwf hp
  have hland : ∀ {q a}, find t q = some a → ∃ b, landing t p = some (q, b) := by
    intro q a hq
    by_contra hno
    have := (hfind q a).mpr (.inr ⟨fun b hb => hno ⟨b, hb⟩, hq⟩)
    rw [hemp] at this
    cases this
  obtain ⟨b, hb⟩ := hland hq
  obtain ⟨b', hb'⟩ := hland hq'
  rw [hb] at hb'
  exact hij (List.cons.inj (List.append_cancel_left (Prod.mk.inj (Option.some.inj hb')).1)).1

end Radix

end Qau
