import Mathlib

/-!
# Radix trees over an arbitrary alphabet

A path-compressed tree: a leaf keeps the part of its path below it, an
`run` shares a run of symbols, a `node` branches on one symbol. The
operations are the two a store needs: `upsert` changes or creates the leaf
at a path, splitting a leaf or a run where the path leaves it, and
`remove` edits the leaf the path *lands* on. Landing does not compare the
rest of the path, so `remove` at an absent path may reach another leaf;
`find_remove` says exactly which entry changes.

All leaves of a tree lie at one distance `n` from the root (`WF n`), so no
path is a proper start of another.
-/

namespace Qau

open Function

inductive Radix (σ α : Type) where
  | empty
  | leaf (rest : List σ) (a : α)
  | node (children : σ → Radix σ α)
  | run (stem : List σ) (child : Radix σ α)

namespace Radix

variable {σ α : Type} [DecidableEq σ]
  {x y : σ} {r p s q c : List σ} {t a b : Radix σ α} {v : α} {f : Option α → α}
  {g : α → Option α} {m n : Nat}

/-! ## Paths -/

/-- What is left of a path after the run `s`, if it starts with `s`. -/
def strip : List σ → List σ → Option (List σ)
  | [], p => some p
  | x :: xs, y :: ys => if x = y then strip xs ys else none
  | _ :: _, [] => none

/-- The common start of two paths and the two ways they go on, when they
part at some symbol. -/
def fork : List σ → List σ → Option (List σ × (σ × List σ) × (σ × List σ))
  | x :: xs, y :: ys =>
    if x = y then (fork xs ys).map fun f => (x :: f.1, f.2) else some ([], (x, xs), (y, ys))
  | _, _ => none

@[simp] theorem strip_append : ∀ (s q : List σ), strip s (s ++ q) = some q
  | [], _ => rfl
  | x :: s, q => by simp [strip, strip_append s q]

theorem strip_eq_some : ∀ {s p q : List σ}, strip s p = some q ↔ p = s ++ q
  | [], p, q => by simp [strip]
  | x :: s, [], q => by simp [strip]
  | x :: s, y :: p, q => by
      by_cases h : x = y
      · subst h
        simp [strip, strip_eq_some (s := s)]
      · simp [strip, h, Ne.symm h]

theorem fork_append (hxy : x ≠ y) (r p : List σ) :
    ∀ c : List σ, fork (c ++ x :: r) (c ++ y :: p) = some (c, (x, r), (y, p))
  | [] => by simp [fork, hxy]
  | z :: c => by simp [fork, fork_append hxy r p c]

/-- Two paths of which neither starts with the other part somewhere. -/
theorem exists_fork : ∀ {r p : List σ}, ¬ r <+: p → ¬ p <+: r →
    ∃ c x r' y p', x ≠ y ∧ r = c ++ x :: r' ∧ p = c ++ y :: p'
  | [], p, h, _ => absurd (List.nil_prefix) h
  | _ :: _, [], _, h => absurd (List.nil_prefix) h
  | x :: r, y :: p, hr, hp => by
      by_cases hxy : x = y
      · subst hxy
        rw [List.cons_prefix_cons, not_and] at hr hp
        obtain ⟨c, x', r', y', p', hne, rfl, rfl⟩ := exists_fork (hr rfl) (hp rfl)
        exact ⟨x :: c, x', r', y', p', hne, rfl, rfl⟩
      · exact ⟨[], x, r, y, p, hxy, rfl, rfl⟩

theorem exists_fork_of_length (hlen : r.length = p.length) (hne : r ≠ p) :
    ∃ c x r' y p', x ≠ y ∧ r = c ++ x :: r' ∧ p = c ++ y :: p' := by
  refine exists_fork (fun h => hne (h.eq_of_length hlen)) (fun h => hne ?_)
  exact (h.eq_of_length hlen.symm).symm

/-- A run no longer than the path that the path does not start with. -/
theorem exists_fork_of_strip (hlen : s.length ≤ p.length) (h : strip s p = none) :
    ∃ c x s' y p', x ≠ y ∧ s = c ++ x :: s' ∧ p = c ++ y :: p' := by
  have hs : ¬ s <+: p := by
    rintro ⟨q, rfl⟩
    simp at h
  refine exists_fork hs fun hp => hs ?_
  rw [hp.eq_of_length (le_antisymm hp.length_le hlen)]

/-! ## Operations -/

def isNode : Radix σ α → Prop
  | .node _ => True
  | _ => False

/-- A run in front of a tree; the empty run is no run. -/
def wrap : List σ → Radix σ α → Radix σ α
  | [], t => t
  | s, t => .run s t

/-- A node with two occupied slots. -/
def branch (x : σ) (a : Radix σ α) (y : σ) (b : Radix σ α) : Radix σ α :=
  .node (update (update (fun _ => .empty) x a) y b)

def find : Radix σ α → List σ → Option α
  | .empty, _ => none
  | .leaf r a, p => if r = p then some a else none
  | .node _, [] => none
  | .node c, i :: p => find (c i) p
  | .run s t, p => (strip s p).bind (find t)

/-- The leaf at the end of the descent along a path, with its own path. -/
def landing : Radix σ α → List σ → Option (List σ × α)
  | .empty, _ => none
  | .leaf r a, _ => some (r, a)
  | .node _, [] => none
  | .node c, i :: p => (landing (c i) p).map fun l => (i :: l.1, l.2)
  | .run s t, p => (strip s p).bind fun q => (landing t q).map fun l => (s ++ l.1, l.2)

/-- Write `f` of the entry at a path (of `none` if there is none). -/
def upsert (f : Option α → α) : Radix σ α → List σ → Radix σ α
  | .empty, p => .leaf p (f none)
  | .leaf r a, p =>
    if r = p then .leaf r (f (some a))
    else
      match fork r p with
      | some (c, (x, r'), (y, p')) => wrap c (branch x (.leaf r' a) y (.leaf p' (f none)))
      | none => .leaf r a
  | .node c, [] => .node c
  | .node c, i :: p => .node (update c i (upsert f (c i) p))
  | .run s t, p =>
    match strip s p with
    | some q => .run s (upsert f t q)
    | none =>
      match fork s p with
      | some (c, (x, s'), (y, p')) => wrap c (branch x (wrap s' t) y (.leaf p' (f none)))
      | none => .run s t

open Classical in
/-- A node, unless no slot is occupied. -/
noncomputable def prune (c : σ → Radix σ α) : Radix σ α :=
  if ∀ i, c i = .empty then .empty else .node c

/-- A run, unless nothing is behind it. -/
def hang (s : List σ) : Radix σ α → Radix σ α
  | .empty => .empty
  | t => .run s t

/-- Edit or drop (`none`) the leaf a path lands on. -/
noncomputable def remove (g : α → Option α) : Radix σ α → List σ → Radix σ α
  | .empty, _ => .empty
  | .leaf r a, _ =>
    match g a with
    | none => .empty
    | some a' => .leaf r a'
  | .node c, [] => .node c
  | .node c, i :: p => prune (update c i (remove g (c i) p))
  | .run s t, p =>
    match strip s p with
    | some q => hang s (remove g t q)
    | none => .run s t

/-- All leaves at distance `n`, no empty node, and a run only in front of
a node. -/
def WF : Nat → Radix σ α → Prop
  | _, .empty => True
  | n, .leaf r _ => r.length = n
  | n, .node c => ∃ m, n = m + 1 ∧ (∀ i, WF m (c i)) ∧ ∃ i, c i ≠ .empty
  | n, .run s t => s ≠ [] ∧ t.isNode ∧ ∃ m, n = s.length + m ∧ WF m t

/-- Induction along a path: at a node it goes on in one child, at a run it
follows the run or leaves it. -/
theorem WF.along {motive : ∀ (t : Radix σ α) (p : List σ), WF p.length t → Prop}
    (empty : ∀ p h, motive .empty p h) (leaf : ∀ r a p h, motive (.leaf r a) p h)
    (node : ∀ c i p h (h' : WF p.length (c i)), motive (c i) p h' → motive (.node c) (i :: p) h)
    (run : ∀ s t q h (h' : WF q.length t), motive t q h' → motive (.run s t) (s ++ q) h)
    (leave : ∀ s t p h, strip s p = none → motive (.run s t) p h) {t : Radix σ α} {p : List σ}
    (h : WF p.length t) : motive t p h := by
  induction t generalizing p with
  | empty => exact empty p h
  | leaf r a => exact leaf r a p h
  | node c ih =>
    obtain ⟨m, hm, hc, -⟩ := id h
    cases p with
    | nil => simp at hm
    | cons i p =>
      obtain rfl : p.length = m := by simpa using hm
      exact node c i p h (hc i) (ih i (hc i))
  | run s t ih =>
    cases hstrip : strip s p with
    | none => exact leave s t p h hstrip
    | some q =>
      obtain rfl := strip_eq_some.mp hstrip
      obtain ⟨-, -, m, hm, ht⟩ := id h
      obtain rfl : q.length = m := by simpa using hm
      exact run s t q h ht (ih ht)

/-! ## Lookup in the pieces the operations build -/

theorem find_run_eq_some : find (.run s t) q = some v ↔ ∃ q', q = s ++ q' ∧ find t q' = some v := by
  simp [find, Option.bind_eq_some_iff, strip_eq_some]

theorem find_wrap_eq_some :
    find (wrap s t) q = some v ↔ ∃ q', q = s ++ q' ∧ find t q' = some v := by
  cases s with
  | nil => simp [wrap]
  | cons x s => exact find_run_eq_some

theorem find_branch_eq_some (hxy : x ≠ y) : find (branch x a y b) q = some v ↔
      (∃ q', q = x :: q' ∧ find a q' = some v) ∨ ∃ q', q = y :: q' ∧ find b q' = some v := by
  cases q with
  | nil => simp [branch, find]
  | cons i q =>
    by_cases hy : i = y
    · subst hy
      simp [branch, find, hxy.symm]
    · by_cases hx : i = x
      · subst hx
        simp [branch, find, hy]
      · simp [branch, find, hx, hy]

/-- Lookup in a fork: below the common start, on one side or the other. -/
theorem find_fork_eq_some (hxy : x ≠ y) : find (wrap c (branch x a y b)) q = some v ↔
      (∃ q', q = c ++ x :: q' ∧ find a q' = some v) ∨
        ∃ q', q = c ++ y :: q' ∧ find b q' = some v := by
  rw [find_wrap_eq_some]
  constructor
  · rintro ⟨q', rfl, h⟩
    rcases (find_branch_eq_some hxy).mp h with ⟨q'', rfl, h'⟩ | ⟨q'', rfl, h'⟩
    · exact .inl ⟨q'', rfl, h'⟩
    · exact .inr ⟨q'', rfl, h'⟩
  · rintro (⟨q', rfl, h⟩ | ⟨q', rfl, h⟩)
    · exact ⟨x :: q', rfl, (find_branch_eq_some hxy).mpr (.inl ⟨q', rfl, h⟩)⟩
    · exact ⟨y :: q', rfl, (find_branch_eq_some hxy).mpr (.inr ⟨q', rfl, h⟩)⟩

omit [DecidableEq σ] in
theorem wf_wrap (hnode : t.isNode) (ht : WF m t) : WF (s.length + m) (wrap s t) := by
  cases s with
  | nil => simpa [wrap] using ht
  | cons x s => exact ⟨by simp, hnode, m, rfl, ht⟩

theorem wf_branch (ha : WF m a) (hb : WF m b) (hne : b ≠ .empty) : WF (m + 1) (branch x a y b) := by
  refine ⟨m, rfl, fun i => ?_, y, by simpa using hne⟩
  by_cases hy : i = y
  · subst hy; simpa using hb
  · rw [update_of_ne hy]
    by_cases hx : i = x
    · subst hx; simpa using ha
    · rw [update_of_ne hx]; trivial

@[simp] theorem isNode_branch (x y : σ) (a b : Radix σ α) : (branch x a y b).isNode := trivial

theorem wf_fork (ha : WF m a) (hb : WF m b) (hne : b ≠ .empty) :
    WF (c.length + (m + 1)) (wrap c (branch x a y b)) :=
  wf_wrap (isNode_branch ..) (wf_branch ha hb hne)

omit [DecidableEq σ] in
theorem wrap_ne_empty (h : t ≠ .empty) : wrap s t ≠ .empty := by
  cases s with
  | nil => exact h
  | cons => exact fun hc => nomatch hc

/-! ## `upsert` -/

theorem upsert_leaf_fork {a : α} (hxy : x ≠ y) : upsert f (.leaf (c ++ x :: r) a) (c ++ y :: p)
      = wrap c (branch x (.leaf r a) y (.leaf p (f none))) := by
  have hne : c ++ x :: r ≠ c ++ y :: p := by simp [hxy]
  simp [upsert, hne, fork_append hxy]

theorem strip_fork (hxy : x ≠ y) : strip (c ++ x :: s) (c ++ y :: p) = none := by
  cases h : strip (c ++ x :: s) (c ++ y :: p) with
  | none => rfl
  | some q =>
    have h' := strip_eq_some.mp h
    simp only [List.append_assoc, List.cons_append, List.append_cancel_left_eq,
      List.cons.injEq] at h'
    exact absurd h'.1.symm hxy

theorem upsert_run_fork (hxy : x ≠ y) : upsert f (.run (c ++ x :: s) t) (c ++ y :: p)
      = wrap c (branch x (wrap s t) y (.leaf p (f none))) := by
  simp [upsert, strip_fork hxy, fork_append hxy]

theorem upsert_run_append : upsert f (.run s t) (s ++ q) = .run s (upsert f t q) := by
  simp [upsert]

theorem isNode_upsert (h : t.isNode) (p : List σ) : (upsert f t p).isNode := by
  cases t with
  | node c => cases p <;> trivial
  | _ => exact h.elim

theorem upsert_ne_empty (f : Option α → α) (t : Radix σ α) (p : List σ) :
    upsert f t p ≠ .empty := by
  have hbranch : ∀ (c : List σ) (x y : σ) (a b : Radix σ α),
      wrap c (branch x a y b) ≠ .empty := fun c x y a b => wrap_ne_empty fun h => nomatch h
  cases t with
  | empty => exact fun h => nomatch h
  | leaf | run =>
    unfold upsert
    split
    · exact fun h => nomatch h
    · split
      · exact hbranch _ _ _ _ _
      · exact fun h => nomatch h
  | node c => cases p <;> exact fun h => nomatch h

theorem wf_upsert (hwf : WF n t) (hp : p.length = n) : WF n (upsert f t p) := by
  subst hp
  induction hwf using WF.along with
  | empty p hwf => rfl
  | leaf r a p hwf =>
    have hr : r.length = p.length := hwf
    by_cases hrp : r = p
    · rw [upsert, if_pos hrp]
      exact hwf
    · obtain ⟨c, x, r', y, p', hxy, rfl, rfl⟩ := exists_fork_of_length hr hrp
      rw [upsert_leaf_fork hxy]
      simp only [List.length_append, List.length_cons] at hr ⊢
      exact wf_fork (show r'.length = p'.length by omega) rfl (fun h => nomatch h)
  | node c i p hwf hi ih =>
    obtain ⟨m, hm, hc, -⟩ := hwf
    obtain rfl : p.length = m := by simpa using hm
    refine ⟨p.length, rfl, ?_, i, by simpa using upsert_ne_empty f (c i) p⟩
    exact (forall_update_iff c fun _ t => WF p.length t).mpr ⟨ih, fun k _ => hc k⟩
  | run s t q hwf ht ih =>
    rw [upsert_run_append]
    exact ⟨hwf.1, isNode_upsert hwf.2.1 q, q.length, List.length_append, ih⟩
  | leave s t p hwf hstrip =>
    obtain ⟨hs, hnode, m, hm, ht⟩ := hwf
    obtain ⟨c, x, s', y, p', hxy, rfl, rfl⟩ := exists_fork_of_strip (by omega) hstrip
    rw [upsert_run_fork hxy]
    simp only [List.length_append, List.length_cons] at hm ⊢
    obtain hlen : p'.length = s'.length + m := by omega
    rw [hlen]
    exact wf_fork (wf_wrap hnode ht) hlen (fun h => nomatch h)

theorem find_upsert (hwf : WF n t) (hp : p.length = n) (q : List σ) (v : α) :
    find (upsert f t p) q = some v ↔
      (q = p ∧ f (find t p) = v) ∨ (q ≠ p ∧ find t q = some v) := by
  subst hp
  induction hwf using WF.along generalizing q v with
  | empty p hwf => simp [upsert, find, eq_comm (a := q)]
  | leaf r a p hwf =>
    by_cases hrp : r = p
    · subst hrp
      by_cases hq : q = r
      · simp [upsert, find, hq]
      · simp [upsert, find, hq, Ne.symm hq]
    · obtain ⟨c, x, r', y, p', hxy, rfl, rfl⟩ := exists_fork_of_length hwf hrp
      rw [upsert_leaf_fork hxy, find_fork_eq_some hxy]
      have hnone : find (.leaf (c ++ x :: r') a) (c ++ y :: p') = none := by simp [find, hxy]
      rw [hnone]
      constructor
      · rintro (⟨q', rfl, h⟩ | ⟨q', rfl, h⟩)
        · simp only [find] at h ⊢
          split at h
          · next heq => subst heq; simpa [hxy] using h
          · cases h
        · simp only [find] at h
          split at h
          · next heq => subst heq; simpa using h
          · cases h
      · rintro (⟨rfl, rfl⟩ | ⟨-, h⟩)
        · exact .inr ⟨p', rfl, by simp [find]⟩
        · simp only [find] at h
          split at h
          · next heq => exact .inl ⟨r', heq.symm, by simpa [find] using h⟩
          · cases h
  | node c i p hwf hi ih =>
    cases q with
    | nil => simp [upsert, find]
    | cons j q =>
      by_cases hj : j = i
      · subst hj; simpa [upsert, find] using ih q v
      · simp [upsert, find, hj]
  | run s t p' hwf ht ih =>
    have hf : find (.run s t) (s ++ p') = find t p' := by simp [find]
    rw [upsert_run_append, find_run_eq_some, find_run_eq_some, hf]
    constructor
    · rintro ⟨q', rfl, h⟩
      rcases (ih _ _).mp h with ⟨rfl, h'⟩ | ⟨hne, h'⟩
      · exact .inl ⟨rfl, h'⟩
      · exact .inr ⟨by simpa using hne, q', rfl, h'⟩
    · rintro (⟨rfl, h⟩ | ⟨hne, q', rfl, h⟩)
      · exact ⟨p', rfl, (ih _ _).mpr (.inl ⟨rfl, h⟩)⟩
      · exact ⟨q', rfl, (ih _ _).mpr (.inr ⟨by simpa using hne, h⟩)⟩
  | leave s t p hwf hstrip =>
    obtain ⟨-, -, m, hm, -⟩ := hwf
    obtain ⟨c, x, s', y, p', hxy, rfl, rfl⟩ := exists_fork_of_strip (by omega) hstrip
    have hnone : find (.run (c ++ x :: s') t) (c ++ y :: p') = none := by
      simp [find, hstrip]
    rw [upsert_run_fork hxy, find_fork_eq_some hxy, hnone]
    constructor
    · rintro (⟨q', rfl, h⟩ | ⟨q', rfl, h⟩)
      · obtain ⟨q'', rfl, h'⟩ := find_wrap_eq_some.mp h
        exact .inr ⟨by simp [hxy], find_run_eq_some.mpr ⟨q'', by simp, h'⟩⟩
      · simp only [find] at h
        split at h
        · next heq => subst heq; exact .inl ⟨rfl, by simpa using h⟩
        · cases h
    · rintro (⟨rfl, rfl⟩ | ⟨-, h⟩)
      · exact .inr ⟨p', rfl, by simp [find]⟩
      · obtain ⟨q', rfl, h'⟩ := find_run_eq_some.mp h
        exact .inl ⟨s' ++ q', by simp, find_wrap_eq_some.mpr ⟨q', rfl, h'⟩⟩

/-! ## `landing` and `remove` -/

theorem landing_run_eq_some {a : α} : landing (.run s t) p = some (r, a) ↔
      ∃ q r', p = s ++ q ∧ r = s ++ r' ∧ landing t q = some (r', a) := by
  simp only [landing, Option.bind_eq_some_iff, strip_eq_some, Option.map_eq_some_iff,
    Prod.mk.injEq, Prod.exists]
  constructor
  · rintro ⟨q, hq, r', a', h, rfl, rfl⟩
    exact ⟨q, r', hq, rfl, h⟩
  · rintro ⟨q, r', hq, rfl, h⟩
    exact ⟨q, hq, r', a, h, rfl, rfl⟩

theorem landing_node_eq_some {c : σ → Radix σ α} {i : σ} {a : α} :
    landing (.node c) (i :: p) = some (r, a) ↔
      ∃ r', r = i :: r' ∧ landing (c i) p = some (r', a) := by
  simp only [landing, Option.map_eq_some_iff, Prod.mk.injEq, Prod.exists]
  constructor
  · rintro ⟨r', a', h, rfl, rfl⟩
    exact ⟨r', rfl, h⟩
  · rintro ⟨r', rfl, h⟩
    exact ⟨r', a, h, rfl, rfl⟩

/-- The landing leaf is in the tree, at the path it is reported with. -/
theorem find_of_landing : ∀ {n : Nat} {p r : List σ} {a : α}, WF n t → landing t p = some (r, a) →
      r.length = n ∧ find t r = some a := by
  induction t with
  | empty => intro n p r a _ h; cases h
  | leaf r' a' =>
    intro n p r a hwf h
    obtain ⟨rfl, rfl⟩ := Prod.mk.inj (Option.some.inj h)
    exact ⟨hwf, by simp [find]⟩
  | node c ih =>
    intro n p r a hwf h
    obtain ⟨m, rfl, hc, -⟩ := hwf
    cases p with
    | nil => cases h
    | cons i p =>
      obtain ⟨r', rfl, h'⟩ := landing_node_eq_some.mp h
      obtain ⟨hlen, hfind⟩ := ih i (hc i) h'
      exact ⟨by simp [hlen], hfind⟩
  | run s t ih =>
    intro n p r a hwf h
    obtain ⟨-, -, m, rfl, ht⟩ := hwf
    obtain ⟨q, r', rfl, rfl, h'⟩ := landing_run_eq_some.mp h
    obtain ⟨hlen, hfind⟩ := ih ht h'
    exact ⟨by simp [hlen], by simpa [find] using hfind⟩

theorem landing_of_find :
    ∀ {p : List σ} {a : α}, find t p = some a → landing t p = some (p, a) := by
  induction t with
  | empty => intro p a h; cases h
  | leaf r a' =>
    intro p a h
    simp only [find] at h
    split at h
    · next heq => simpa [landing, heq] using h
    · cases h
  | node c ih =>
    intro p a h
    cases p with
    | nil => cases h
    | cons i p => exact landing_node_eq_some.mpr ⟨p, rfl, ih i h⟩
  | run s t ih =>
    intro p a h
    obtain ⟨q, rfl, h'⟩ := find_run_eq_some.mp h
    exact landing_run_eq_some.mpr ⟨q, q, rfl, rfl, ih h'⟩

theorem exists_find :
    ∀ {n : Nat}, WF n t → t ≠ .empty → ∃ q a, q.length = n ∧ find t q = some a := by
  induction t with
  | empty => intro n _ h; exact absurd rfl h
  | leaf r a => intro n hwf _; exact ⟨r, a, hwf, by simp [find]⟩
  | node c ih =>
    intro n hwf _
    obtain ⟨m, rfl, hc, i, hi⟩ := hwf
    obtain ⟨q, a, hq, h⟩ := ih i (hc i) hi
    exact ⟨i :: q, a, by simp [hq], h⟩
  | run s t ih =>
    intro n hwf _
    obtain ⟨-, hnode, m, rfl, ht⟩ := hwf
    obtain ⟨q, a, hq, h⟩ := ih ht (by rintro rfl; exact hnode)
    exact ⟨s ++ q, a, by simp [hq], by simpa [find] using h⟩

theorem find_prune (c : σ → Radix σ α) (q : List σ) : find (prune c) q = find (.node c) q := by
  unfold prune
  split
  · next h => cases q <;> simp [find, h]
  · rfl

theorem find_hang (s : List σ) (t : Radix σ α) (q : List σ) :
    find (hang s t) q = find (.run s t) q := by
  cases t with
  | empty => cases h : strip s q <;> simp [hang, find]
  | _ => rfl

omit [DecidableEq σ] in
theorem wf_prune {c : σ → Radix σ α} (hc : ∀ i, WF m (c i)) : WF (m + 1) (prune c) := by
  unfold prune
  split
  · trivial
  · next h => exact ⟨m, rfl, hc, by simpa using h⟩

omit [DecidableEq σ] in
theorem prune_isNode_or_empty (c : σ → Radix σ α) : prune c = .empty ∨ (prune c).isNode := by
  unfold prune
  split
  · exact .inl rfl
  · exact .inr trivial

theorem remove_isNode_or_empty (h : t.isNode) (p : List σ) :
    remove g t p = .empty ∨ (remove g t p).isNode := by
  cases t with
  | node c =>
    cases p with
    | nil => exact .inr trivial
    | cons i p => exact prune_isNode_or_empty _
  | _ => exact h.elim

theorem wf_remove (hwf : WF n t) (hp : p.length = n) : WF n (remove g t p) := by
  subst hp
  induction hwf using WF.along with
  | empty p hwf => trivial
  | leaf r a p hwf =>
    simp only [remove]
    split
    · trivial
    · exact hwf
  | node c i p hwf hi ih =>
    obtain ⟨m, hm, hc, -⟩ := hwf
    obtain rfl : p.length = m := by simpa using hm
    exact wf_prune ((forall_update_iff c fun _ t => WF p.length t).mpr
      ⟨ih, fun k _ => hc k⟩)
  | run s t q hwf ht ih =>
    simp only [remove, strip_append]
    rcases remove_isNode_or_empty (g := g) hwf.2.1 q with hempty | hnode'
    · rw [hempty]; trivial
    · cases hr : remove g t q with
      | node d => rw [hr] at ih; exact ⟨hwf.1, trivial, q.length, List.length_append, ih⟩
      | _ => rw [hr] at hnode'; exact hnode'.elim
  | leave s t p hwf hstrip =>
    simp only [remove, hstrip]
    exact hwf

theorem find_remove (hwf : WF n t) (hp : p.length = n) (q : List σ) (v : α) :
    find (remove g t p) q = some v ↔
      (∃ a, landing t p = some (q, a) ∧ g a = some v) ∨
        ((∀ a, landing t p ≠ some (q, a)) ∧ find t q = some v) := by
  subst hp
  induction hwf using WF.along generalizing q v with
  | empty p hwf => simp [remove, landing]
  | leaf r a p hwf =>
    by_cases hq : r = q
    · subst hq
      simp only [remove, landing]
      split
      · next h => simp [find, h]
      · next a' h => simp [find, h]
    · simp only [remove, landing]
      split
      · simp [find, hq]
      · simp [find, hq]
  | node c i p hwf hi ih =>
    rw [remove, find_prune]
    cases q with
    | nil => simp [find, landing_node_eq_some]
    | cons j q =>
      by_cases hj : j = i
      · subst hj
        simpa [find, landing_node_eq_some] using ih q v
      · simp [find, landing_node_eq_some, hj]
  | run s t p' hwf ht ih =>
    rw [remove, strip_append]
    simp only [find_hang, find_run_eq_some, landing_run_eq_some]
    constructor
    · rintro ⟨q', rfl, h⟩
      rcases (ih _ _).mp h with ⟨a, hl, hg⟩ | ⟨hl, hf⟩
      · exact .inl ⟨a, ⟨p', q', rfl, rfl, hl⟩, hg⟩
      · refine .inr ⟨fun a hland => ?_, q', rfl, hf⟩
        obtain ⟨q1, r1, h1, h2, h3⟩ := landing_run_eq_some.mp hland
        obtain rfl := List.append_cancel_left h1
        obtain rfl := List.append_cancel_left h2
        exact hl a h3
    · rintro (⟨a, ⟨q1, r1, h1, rfl, h3⟩, hg⟩ | ⟨hl, q', rfl, hf⟩)
      · obtain rfl := List.append_cancel_left h1
        exact ⟨r1, rfl, (ih _ _).mpr (.inl ⟨a, h3, hg⟩)⟩
      · refine ⟨q', rfl, (ih _ _).mpr (.inr ⟨fun a hland => hl a ?_, hf⟩)⟩
        exact landing_run_eq_some.mpr ⟨p', q', rfl, rfl, hland⟩
  | leave s t p hwf hstrip =>
    have hland : landing (.run s t) p = none := by simp [landing, hstrip]
    simp [remove, hstrip, hland]

end Radix

end Qau
