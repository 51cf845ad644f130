import Qau.RadixCanon

/-!
# Hashed radix trees

A `Merkle` scheme turns a radix tree into a digest: every nonempty subtree
has a message, built from its payload or from its children's digests, and
its hash is the digest of that message. The scheme says what the messages
determine: a node message its children's digests, a run message the digest
behind it, but *not* how long the run is, and a leaf message not the leaf.

Collision freedom is relative to a set of messages, those that some run
really hashed; a function onto fixed-length digests is never injective.
Equal hashes then make two trees `Alike` (`alike_of_hash_eq`), and inside
one tree whose leaves have different messages they make two subtrees
equal (`eq_of_hash_eq`): that is what lets a store keyed by hashes keep
one entry per subtree.
-/

namespace Qau

open Function

variable {t u : Radix σ α}

/-- How subtrees become messages and digests. -/
structure Merkle (σ α μ η : Type) where
  digest : μ → η
  zero : η
  leafMsg : α → μ
  nodeMsg : (σ → η) → μ
  runMsg : List σ → η → μ
  node_inj : ∀ {c d}, nodeMsg c = nodeMsg d → c = d
  run_inj : ∀ {s t h k}, runMsg s h = runMsg t k → h = k
  leaf_ne_node : ∀ a c, leafMsg a ≠ nodeMsg c
  leaf_ne_run : ∀ a s h, leafMsg a ≠ runMsg s h
  node_ne_run : ∀ c s h, nodeMsg c ≠ runMsg s h

/-- No two of the messages in `S` share a digest, and none has the digest
reserved for the empty tree. -/
structure CollisionFree {μ η : Type} (digest : μ → η) (zero : η) (S : Set μ) : Prop where
  inj : ∀ {m m'}, m ∈ S → m' ∈ S → digest m = digest m' → m = m'
  ne_zero : ∀ {m}, m ∈ S → digest m ≠ zero

theorem CollisionFree.mono {μ η : Type} {digest : μ → η} {zero : η} {S S' : Set μ}
    (h : CollisionFree digest zero S') (hsub : S ⊆ S') : CollisionFree digest zero S :=
  ⟨fun hm hm' => h.inj (hsub hm) (hsub hm'), fun hm => h.ne_zero (hsub hm)⟩

namespace Radix

variable {σ α μ η : Type} (M : Merkle σ α μ η)

def hash : Radix σ α → η
  | .empty => M.zero
  | .leaf _ a => M.digest (M.leafMsg a)
  | .node c => M.digest (M.nodeMsg fun i => hash (c i))
  | .run s t => M.digest (M.runMsg s (hash t))

/-- Every message of the tree is in `S`. -/
def Covers (S : Set μ) : Radix σ α → Prop
  | .empty => True
  | .leaf _ a => M.leafMsg a ∈ S
  | .node c => M.nodeMsg (fun i => hash M (c i)) ∈ S ∧ ∀ i, Covers S (c i)
  | .run s t => M.runMsg s (hash M t) ∈ S ∧ Covers S t

/-- The message of a nonempty tree. -/
def msg : Radix σ α → Option μ
  | .empty => none
  | .leaf _ a => some (M.leafMsg a)
  | .node c => some (M.nodeMsg fun i => hash M (c i))
  | .run s t => some (M.runMsg s (hash M t))

/-- The same shape, with related leaves. -/
def Alike (R : α → α → Prop) : Radix σ α → Radix σ α → Prop
  | .empty, .empty => True
  | .leaf _ a, .leaf _ b => R a b
  | .node c, .node d => ∀ i, Alike R (c i) (d i)
  | .run _ t, .run _ u => Alike R t u
  | _, _ => False

/-- The nonempty subtrees. -/
def subs : Radix σ α → Set (Radix σ α)
  | .empty => ∅
  | .leaf r a => {.leaf r a}
  | .node c => insert (.node c) {u | ∃ i, u ∈ subs (c i)}
  | .run s t => insert (.run s t) (subs t)

variable {M}

theorem Covers.mono {S S' : Set μ} (hsub : S ⊆ S') {t : Radix σ α} :
    Covers M S t → Covers M S' t := by
  induction t with
  | empty => exact id
  | leaf r a => exact fun h => hsub h
  | node c ih => exact fun h => ⟨hsub h.1, fun i => ih i (h.2 i)⟩
  | run s t ih => exact fun h => ⟨hsub h.1, ih h.2⟩

theorem mem_subs_self (h : t ≠ .empty) : t ∈ subs t := by
  cases t with
  | empty => exact absurd rfl h
  | leaf r a => exact rfl
  | node | run => exact Set.mem_insert ..

theorem subs_trans {u v t : Radix σ α} (hu : u ∈ subs v) (hv : v ∈ subs t) : u ∈ subs t := by
  induction t with
  | empty => exact hv.elim
  | leaf r a =>
    obtain rfl := Set.mem_singleton_iff.mp hv
    exact hu
  | node c ih =>
    rcases hv with rfl | ⟨i, hi⟩
    · exact hu
    · exact .inr ⟨i, ih i hi⟩
  | run s t ih =>
    rcases hv with rfl | hv
    · exact hu
    · exact .inr (ih hv)

theorem subs_ne_empty (h : u ∈ subs t) : u ≠ .empty := by
  induction t with
  | empty => exact h.elim
  | leaf r a => obtain rfl := Set.mem_singleton_iff.mp h; exact fun h => nomatch h
  | node c ih =>
    rcases h with rfl | ⟨i, hi⟩
    · exact fun h => nomatch h
    · exact ih i hi
  | run s t ih =>
    rcases h with rfl | h
    · exact fun h => nomatch h
    · exact ih h

theorem wf_le_of_mem_subs : ∀ {n : Nat}, WF n t → u ∈ subs t → ∃ m, m ≤ n ∧ WF m u := by
  induction t with
  | empty => intro n _ h; exact h.elim
  | leaf r a => intro n hwf h; obtain rfl := Set.mem_singleton_iff.mp h; exact ⟨n, le_rfl, hwf⟩
  | node c ih =>
    intro n hwf h
    rcases h with rfl | ⟨i, hi⟩
    · exact ⟨n, le_rfl, hwf⟩
    · obtain ⟨m, rfl, hc, -⟩ := hwf
      obtain ⟨k, hk, hwk⟩ := ih i (hc i) hi
      exact ⟨k, by omega, hwk⟩
  | run s t ih =>
    intro n hwf h
    rcases h with rfl | h
    · exact ⟨n, le_rfl, hwf⟩
    · obtain ⟨-, -, m, rfl, ht⟩ := hwf
      obtain ⟨k, hk, hwk⟩ := ih ht h
      exact ⟨k, by omega, hwk⟩

theorem covers_of_mem_subs {S : Set μ} {u t : Radix σ α} (hcov : Covers M S t)
    (h : u ∈ subs t) : Covers M S u := by
  induction t with
  | empty => exact h.elim
  | leaf r a => obtain rfl := Set.mem_singleton_iff.mp h; exact hcov
  | node c ih =>
    rcases h with rfl | ⟨i, hi⟩
    · exact hcov
    · exact ih i (hcov.2 i) hi
  | run s t ih =>
    rcases h with rfl | h
    · exact hcov
    · exact ih hcov.2 h

theorem covers_iff {S : Set μ} {t : Radix σ α} :
    Covers M S t ↔ ∀ u ∈ subs t, ∀ m, msg M u = some m → m ∈ S := by
  constructor
  · intro hcov u hu m hm
    have hcu := covers_of_mem_subs hcov hu
    cases u with
    | empty => cases hm
    | leaf r a => obtain rfl := Option.some.inj hm; exact hcu
    | node | run => obtain rfl := Option.some.inj hm; exact hcu.1
  · induction t with
    | empty => exact fun _ => trivial
    | leaf r a => exact fun h => h _ rfl _ rfl
    | node c ih =>
      intro h
      exact ⟨h _ (Set.mem_insert ..) _ rfl, fun i => ih i fun u hu => h u (.inr ⟨i, hu⟩)⟩
    | run s t ih =>
      intro h
      exact ⟨h _ (Set.mem_insert ..) _ rfl, ih fun u hu => h u (.inr hu)⟩

/-! ## What equal hashes say -/

theorem hash_ne_zero {S : Set μ} (hcf : CollisionFree M.digest M.zero S) {t : Radix σ α}
    (hcov : Covers M S t) (hne : t ≠ .empty) : hash M t ≠ M.zero := by
  cases t with
  | empty => exact absurd rfl hne
  | leaf r a => exact hcf.ne_zero hcov
  | node | run => exact hcf.ne_zero hcov.1

/-- Trees with one hash have one shape, and leaves with equal messages. -/
theorem alike_of_hash_eq {S : Set μ} (hcf : CollisionFree M.digest M.zero S)
    {t : Radix σ α} : ∀ {u : Radix σ α}, Covers M S t → Covers M S u → hash M t = hash M u →
      Alike (fun a b => M.leafMsg a = M.leafMsg b) t u := by
  induction t with
  | empty =>
    intro u _ hu h
    cases u with
    | empty => trivial
    | _ => exact absurd h.symm (hash_ne_zero hcf hu fun h => nomatch h)
  | leaf r a =>
    intro u ht hu h
    cases u with
    | empty => exact absurd h (hash_ne_zero hcf ht fun h => nomatch h)
    | leaf r' b => exact hcf.inj ht hu h
    | node c => exact absurd (hcf.inj ht hu.1 h) (M.leaf_ne_node _ _)
    | run s u => exact absurd (hcf.inj ht hu.1 h) (M.leaf_ne_run _ _ _)
  | node c ih =>
    intro u ht hu h
    cases u with
    | empty => exact absurd h (hash_ne_zero hcf ht fun h => nomatch h)
    | leaf r' b => exact absurd (hcf.inj hu ht.1 h.symm) (M.leaf_ne_node _ _)
    | node d =>
      intro i
      have hcd := M.node_inj (hcf.inj ht.1 hu.1 h)
      exact ih i (ht.2 i) (hu.2 i) (congrFun hcd i)
    | run s u => exact absurd (hcf.inj ht.1 hu.1 h) (M.node_ne_run _ _ _)
  | run s t ih =>
    intro u ht hu h
    cases u with
    | empty => exact absurd h (hash_ne_zero hcf ht fun h => nomatch h)
    | leaf r' b => exact absurd (hcf.inj hu ht.1 h.symm) (M.leaf_ne_run _ _ _)
    | node d => exact absurd (hcf.inj hu.1 ht.1 h.symm) (M.node_ne_run _ _ _)
    | run s' u => exact ih ht.2 hu.2 (M.run_inj (hcf.inj ht.1 hu.1 h))

/-! ## Size -/

section
variable [Fintype σ]

/-- The number of nonempty subtrees. -/
def size : Radix σ α → Nat
  | .empty => 0
  | .leaf _ _ => 1
  | .node c => 1 + ∑ i, size (c i)
  | .run _ t => 1 + size t

theorem size_child_lt (c : σ → Radix σ α) (i : σ) : size (c i) < size (.node c) := by
  have h : size (c i) ≤ ∑ i, size (c i) :=
    Finset.single_le_sum (f := fun i => size (c i)) (fun _ _ => Nat.zero_le _) (Finset.mem_univ i)
  rw [size]
  omega

theorem size_le_size_wrap (s : List σ) (t : Radix σ α) : size t ≤ size (wrap s t) := by
  cases s with
  | nil => exact le_rfl
  | cons z s => simp [wrap, size]

theorem size_eq_of_alike {R : α → α → Prop} {t : Radix σ α} :
    ∀ {u : Radix σ α}, Alike R t u → size t = size u := by
  induction t with
  | empty =>
    intro u h
    cases u with
    | empty => rfl
    | _ => exact h.elim
  | leaf r a =>
    intro u h
    cases u with
    | leaf r' b => rfl
    | _ => exact h.elim
  | node c ih =>
    intro u h
    cases u with
    | node d =>
      simp only [size]
      rw [Finset.sum_congr rfl fun i _ => ih i (h i)]
    | _ => exact h.elim
  | run s t ih =>
    intro u h
    cases u with
    | run s' u => simp only [size, ih h]
    | _ => exact h.elim

theorem size_le_of_mem_subs {u t : Radix σ α} (h : u ∈ subs t) : size u ≤ size t := by
  induction t with
  | empty => exact h.elim
  | leaf r a => obtain rfl := Set.mem_singleton_iff.mp h; exact le_rfl
  | node c ih =>
    rcases h with rfl | ⟨i, hi⟩
    · exact le_rfl
    · exact (ih i hi).trans (size_child_lt c i).le
  | run s t ih =>
    rcases h with rfl | h
    · exact le_rfl
    · exact (ih h).trans (by simp [size])

end

/-! ## One entry per subtree -/

section
variable [DecidableEq σ]

theorem find_of_mem_subs {u t : Radix σ α} (h : u ∈ subs t) :
    ∀ {q : List σ} {a : α}, find u q = some a → ∃ q', find t q' = some a := by
  induction t with
  | empty => exact h.elim
  | leaf r a => obtain rfl := Set.mem_singleton_iff.mp h; exact fun h => ⟨_, h⟩
  | node c ih =>
    rcases h with rfl | ⟨i, hi⟩
    · exact fun h => ⟨_, h⟩
    · intro q a hq
      obtain ⟨q', hq'⟩ := ih i hi hq
      exact ⟨i :: q', hq'⟩
  | run s t ih =>
    rcases h with rfl | h
    · exact fun h => ⟨_, h⟩
    · intro q a hq
      obtain ⟨q', hq'⟩ := ih h hq
      exact ⟨s ++ q', by simpa [find] using hq'⟩

/-- Alike trees have related entries, not necessarily at one path. -/
theorem find_of_alike {R : α → α → Prop} {t : Radix σ α} :
    ∀ {u : Radix σ α}, Alike R t u → ∀ {q : List σ} {a : α}, find t q = some a →
      ∃ q' b, find u q' = some b ∧ R a b := by
  induction t with
  | empty => intro u _ q a hq; cases hq
  | leaf r a' =>
    intro u h q a hq
    cases u with
    | leaf r' b =>
      refine ⟨r', b, by simp [find], ?_⟩
      simp only [find] at hq
      split at hq
      · rw [← Option.some.inj hq]; exact h
      · cases hq
    | _ => exact h.elim
  | node c ih =>
    intro u h q a hq
    cases u with
    | node d =>
      cases q with
      | nil => cases hq
      | cons i q =>
        obtain ⟨q', b, hb, hR⟩ := ih i (h i) hq
        exact ⟨i :: q', b, hb, hR⟩
    | _ => exact h.elim
  | run s t ih =>
    intro u h q a hq
    cases u with
    | run s' u =>
      obtain ⟨q1, rfl, hq1⟩ := find_run_eq_some.mp hq
      obtain ⟨q', b, hb, hR⟩ := ih h hq1
      exact ⟨s' ++ q', b, by simpa [find] using hb, hR⟩
    | _ => exact h.elim

/-- Related entries sit at one path. -/
def Apart (R : α → α → Prop) (t : Radix σ α) : Prop :=
  ∀ p q a b, find t p = some a → find t q = some b → R a b → p = q

theorem Apart.child {R : α → α → Prop} {c : σ → Radix σ α} (h : Apart R (.node c)) (i : σ) :
    Apart R (c i) := fun p q a b hp hq hR => (List.cons.inj (h (i :: p) (i :: q) a b hp hq hR)).2

theorem Apart.behind {R : α → α → Prop} {s : List σ} {t : Radix σ α}
    (h : Apart R (.run s t)) : Apart R t := fun p q a b hp hq hR =>
  List.append_cancel_left
    (h (s ++ p) (s ++ q) a b (by simpa [find] using hp) (by simpa [find] using hq) hR)

variable [Fintype σ]

/-- In a tree whose leaves have different messages, subtrees with one hash
are one subtree. -/
theorem eq_of_hash_eq {S : Set μ} (hcf : CollisionFree M.digest M.zero S) {t : Radix σ α} :
    ∀ {n : Nat}, WF n t → Covers M S t → Apart (fun a b => M.leafMsg a = M.leafMsg b) t →
      ∀ {u v : Radix σ α}, u ∈ subs t → v ∈ subs t → hash M u = hash M v → u = v := by
  induction t with
  | empty => intro n _ _ _ u v hu; exact hu.elim
  | leaf r a =>
    intro n _ _ _ u v hu hv _
    rw [Set.mem_singleton_iff.mp hu, Set.mem_singleton_iff.mp hv]
  | node c ih =>
    intro n hwf hcov hap u v hu hv h
    have hwf' := hwf
    obtain ⟨m, rfl, hc, -⟩ := hwf'
    have halike := alike_of_hash_eq hcf (covers_of_mem_subs hcov hu)
      (covers_of_mem_subs hcov hv) h
    have hsize := size_eq_of_alike halike
    rcases hu with rfl | ⟨i, hi⟩
    · rcases hv with rfl | ⟨j, hj⟩
      · rfl
      · have := (size_le_of_mem_subs hj).trans_lt (size_child_lt c j)
        omega
    · rcases hv with rfl | ⟨j, hj⟩
      · have := (size_le_of_mem_subs hi).trans_lt (size_child_lt c i)
        omega
      · by_cases hij : i = j
        · subst hij
          exact ih i (hc i) (hcov.2 i) (hap.child i) hi hj h
        · obtain ⟨k, -, hwu⟩ := wf_le_of_mem_subs (hc i) hi
          obtain ⟨q, a, -, ha⟩ := exists_find hwu (subs_ne_empty hi)
          obtain ⟨q', b, hb, hR⟩ := find_of_alike halike ha
          obtain ⟨p1, hp1⟩ := find_of_mem_subs hi ha
          obtain ⟨p2, hp2⟩ := find_of_mem_subs hj hb
          have := hap (i :: p1) (j :: p2) a b hp1 hp2 hR
          exact absurd (List.cons.inj this).1 hij
  | run s t ih =>
    intro n hwf hcov hap u v hu hv h
    have hwf' := hwf
    obtain ⟨-, -, m, rfl, ht⟩ := hwf'
    have hsize := size_eq_of_alike (alike_of_hash_eq hcf (covers_of_mem_subs hcov hu)
      (covers_of_mem_subs hcov hv) h)
    rcases hu with rfl | hu
    · rcases hv with rfl | hv
      · rfl
      · have := size_le_of_mem_subs hv
        simp only [size] at hsize
        omega
    · rcases hv with rfl | hv
      · have := size_le_of_mem_subs hu
        simp only [size] at hsize
        omega
      · exact ih ht hcov.2 hap.behind hu hv h

/-! ## An insertion that splits is not undone -/

/-- Where an insertion has to split a leaf or a run, the removal that takes
the new leaf back leaves a tree of another shape. -/
theorem not_alike_remove_upsert {R : α → α → Prop} {f : Option α → α} {g : α → Option α}
    (hg : g (f none) = none) {t : Radix σ α} {n : Nat} {p : List σ} (hwf : WF n t)
    (hp : p.length = n) (hfit : ¬ Fits t p) : ¬ Alike R (remove g (upsert f t p) p) t := by
  subst hp
  induction hwf using WF.along with
  | empty p hwf => exact absurd trivial hfit
  | leaf r a p hwf =>
    obtain ⟨c, x, r', y, p', hxy, rfl, rfl⟩ := exists_fork_of_length hwf hfit
    rw [upsert_leaf_fork hxy, remove_fork hxy (a := .leaf r' a) (fun h => (nomatch h)) hg]
    cases c <;> exact id
  | node c i p hwf hi ih =>
    simp only [upsert, remove, update_self, update_idem, prune]
    split
    · exact id
    · intro h
      have := h i
      rw [update_self] at this
      exact ih hfit this
  | run s t q hwf ht ih =>
    have hq := ih fun h => hfit ⟨q, rfl, h⟩
    rw [upsert_run_append]
    simp only [remove, strip_append]
    generalize remove g (upsert f t q) q = u at hq
    cases u with
    | empty => exact id
    | _ => exact hq
  | leave s t p hwf hstrip =>
    obtain ⟨-, hnode, m, hm, -⟩ := hwf
    have hne : t ≠ .empty := by rintro rfl; exact hnode
    obtain ⟨c, x, s', y, p', hxy, rfl, rfl⟩ := exists_fork_of_strip (by omega) hstrip
    rw [upsert_run_fork hxy, remove_fork hxy (wrap_ne_empty hne) hg]
    cases c with
    | nil => exact id
    | cons z c =>
      intro h
      have hsize := size_eq_of_alike
        (show Alike R (.node (update (fun _ => .empty) x (wrap s' t))) t from h)
      have hlt := size_child_lt (update (fun _ => .empty) x (wrap s' t)) x
      rw [update_self] at hlt
      have hle := size_le_size_wrap s' t
      omega

/-- An insertion that gives a tree of the same shape and leaf messages has
only rewritten the leaf of its path. -/
theorem exists_of_alike_upsert {R : α → α → Prop} {f : Option α → α} {t : Radix σ α} {n : Nat}
    {p : List σ} (hwf : WF n t) (hp : p.length = n) (h : Alike R (upsert f t p) t) :
    ∃ a, find t p = some a ∧ R (f (some a)) a := by
  subst hp
  induction hwf using WF.along with
  | empty p hwf => exact h.elim
  | leaf r a p hwf =>
    by_cases hrp : r = p
    · subst hrp
      simp only [upsert, if_true] at h
      exact ⟨a, by simp [find], h⟩
    · obtain ⟨c, x, r', y, p', hxy, rfl, rfl⟩ := exists_fork_of_length hwf hrp
      rw [upsert_leaf_fork hxy] at h
      cases c <;> exact h.elim
  | node c i p hwf hi ih =>
    have hslot := h i
    rw [update_self] at hslot
    exact ih hslot
  | run s t q hwf ht ih =>
    rw [upsert_run_append] at h
    obtain ⟨a, ha, hR⟩ := ih h
    exact ⟨a, find_run_eq_some.mpr ⟨q, rfl, ha⟩, hR⟩
  | leave s t p hwf hstrip =>
    obtain ⟨-, -, m, hm, -⟩ := hwf
    obtain ⟨c, x, s', y, p', hxy, rfl, rfl⟩ := exists_fork_of_strip (by omega) hstrip
    rw [upsert_run_fork hxy] at h
    cases c with
    | nil => exact h.elim
    | cons z c =>
      have hsize := size_eq_of_alike
        (show Alike R (branch x (wrap s' t) y (.leaf p' (f none))) t from h)
      have hlt := size_child_lt (update (update (fun _ => .empty) x
        (wrap s' t)) y (.leaf p' (f none))) x
      rw [update_of_ne hxy, update_self] at hlt
      have hle := size_le_size_wrap s' t
      simp only [branch] at hsize
      omega

end

end Radix

end Qau
