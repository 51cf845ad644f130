import Mathlib

/-!
# Binary hash trees

A tree over any set of digests `H` with any `combine`. Nodes are addressed
by depth and offset: `node 0 0` is the root, the children of `node d p` are
`node (d + 1) (2 * p)` and `node (d + 1) (2 * p + 1)`.

A verifier climbs from a digest to a root. Each step has a sibling and a
side; the sides, read upwards, are the binary digits of an offset
(`stepsOffset`). Two facts about climbing are all a verifier needs:

* `climb_path`: from a node of the tree, its own siblings lead to its
  ancestor, for every `combine`;
* `climb_eq_node`: a climb that arrives at a node of the tree started at a
  node of the tree, the one the sides lead down to, if the pairs combined on
  the way collide with none in the tree. The siblings are the prover's.

A climb of `m` steps by the bits of an index (`stepsOf`) reads `m` bits of it
and nothing above.
-/

namespace Qau

variable {index d p : Nat}

section
variable {H : Type} (combine : H → H → H)

/-- A step of a climb: whether the current node is a right child, and its
sibling. -/
abbrev ClimbStep (H : Type) := Bool × H

/-- The pair a step combines, left child first. -/
def stepPair (step : ClimbStep H) (cur : H) : H × H :=
  if step.1 then (step.2, cur) else (cur, step.2)

def climb : List (ClimbStep H) → H → H
  | [], cur => cur
  | step :: steps, cur => climb steps (combine (stepPair step cur).1 (stepPair step cur).2)

def climbPairs : List (ClimbStep H) → H → List (H × H)
  | [], _ => []
  | step :: steps, cur =>
    stepPair step cur :: climbPairs steps (combine (stepPair step cur).1 (stepPair step cur).2)

/-- The offset the sides of a climb spell, lowest digit first. -/
def stepsOffset : List (ClimbStep H) → Nat
  | [] => 0
  | step :: steps => step.1.toNat + 2 * stepsOffset steps

/-- The steps of a climb that follows the bits of `index`. -/
def stepsOf : Nat → List H → List (ClimbStep H)
  | _, [] => []
  | index, sib :: sibs => (index % 2 == 1, sib) :: stepsOf (index / 2) sibs

/-- `node` is a tree down to depth `D`. -/
def IsTree (D : Nat) (node : Nat → Nat → H) : Prop :=
  ∀ d p, d < D → p < 2 ^ d → node d p = combine (node (d + 1) (2 * p)) (node (d + 1) (2 * p + 1))

/-- The pairs of `pairs` collide with no pair of the tree. -/
def NoClash (D : Nat) (node : Nat → Nat → H) (pairs : List (H × H)) : Prop :=
  ∀ pair ∈ pairs, ∀ d p, d < D → p < 2 ^ d →
    combine pair.1 pair.2 = combine (node (d + 1) (2 * p)) (node (d + 1) (2 * p + 1)) →
    pair = (node (d + 1) (2 * p), node (d + 1) (2 * p + 1))

/-- The offset next to `p` under the same parent. -/
def siblingOffset (p : Nat) : Nat := if p % 2 = 0 then p + 1 else p - 1

/-- The siblings on the way of `m` levels from offset `p` at depth `d + m`. -/
def pathSiblings (node : Nat → Nat → H) (d : Nat) : (m p : Nat) → List H
  | 0, _ => []
  | m + 1, p => node (d + m + 1) (siblingOffset p) :: pathSiblings node d m (p / 2)

end

/-! ## Steps -/

section
variable {H : Type} {combine : H → H → H}

theorem climb_append (steps steps' : List (ClimbStep H)) (cur : H) :
    climb combine (steps ++ steps') cur = climb combine steps' (climb combine steps cur) := by
  induction steps generalizing cur with
  | nil => rfl
  | cons step steps ih => rw [List.cons_append, climb, ih, climb]

theorem climbPairs_append (steps steps' : List (ClimbStep H)) (cur : H) :
    climbPairs combine (steps ++ steps') cur =
      climbPairs combine steps cur ++ climbPairs combine steps' (climb combine steps cur) := by
  induction steps generalizing cur with
  | nil => rfl
  | cons step steps ih => rw [List.cons_append, climbPairs, ih, climbPairs, climb, List.cons_append]

theorem stepsOffset_append (steps steps' : List (ClimbStep H)) :
    stepsOffset (steps ++ steps') = stepsOffset steps + 2 ^ steps.length * stepsOffset steps' := by
  induction steps with
  | nil => simp [stepsOffset]
  | cons step steps ih =>
    rw [List.cons_append, stepsOffset, ih, stepsOffset, List.length_cons, Nat.pow_succ]
    ring

theorem stepsOffset_lt (steps : List (ClimbStep H)) : stepsOffset steps < 2 ^ steps.length := by
  induction steps with
  | nil => simp [stepsOffset]
  | cons step steps ih =>
    have hbit := Bool.toNat_le step.1
    rw [stepsOffset, List.length_cons, Nat.pow_succ]
    omega

@[simp] theorem length_stepsOf (index : Nat) (sibs : List H) :
    (stepsOf index sibs).length = sibs.length := by
  induction sibs generalizing index with
  | nil => rfl
  | cons sib sibs ih => rw [stepsOf, List.length_cons, ih, List.length_cons]

/-- Following an index uses as many of its low bits as there are siblings. -/
theorem stepsOffset_stepsOf (index : Nat) (sibs : List H) :
    stepsOffset (stepsOf index sibs) = index % 2 ^ sibs.length := by
  induction sibs generalizing index with
  | nil => simp [stepsOf, stepsOffset, Nat.mod_one]
  | cons sib sibs ih =>
    have hbit : (index % 2 == 1).toNat = index % 2 := by
      rcases Nat.mod_two_eq_zero_or_one index with h | h <;> simp [h]
    rw [stepsOf, stepsOffset, ih, hbit, List.length_cons, Nat.pow_succ', Nat.mod_mul]

theorem stepsOf_congr {index' : Nat} {sibs : List H}
    (h : index % 2 ^ sibs.length = index' % 2 ^ sibs.length) :
    stepsOf index sibs = stepsOf index' sibs := by
  induction sibs generalizing index index' with
  | nil => rfl
  | cons sib sibs ih =>
    rw [List.length_cons, Nat.pow_succ', Nat.mod_mul, Nat.mod_mul] at h
    have hbit : index % 2 = index' % 2 := by omega
    have hhigh : index / 2 % 2 ^ sibs.length = index' / 2 % 2 ^ sibs.length := by omega
    rw [stepsOf, stepsOf, hbit, ih hhigh]

theorem stepsOf_append (index : Nat) (sibs sibs' : List H) :
    stepsOf index (sibs ++ sibs') = stepsOf index sibs ++ stepsOf (index / 2 ^ sibs.length) sibs' := by
  induction sibs generalizing index with
  | nil => simp [stepsOf]
  | cons sib sibs ih =>
    rw [List.cons_append, stepsOf, ih, stepsOf, List.cons_append, List.length_cons, Nat.pow_succ',
      Nat.div_div_eq_div_mul]

@[simp] theorem length_pathSiblings (node : Nat → Nat → H) (d m p : Nat) :
    (pathSiblings node d m p).length = m := by
  induction m generalizing p with
  | zero => rfl
  | succ m ih => rw [pathSiblings, List.length_cons, ih]

/-! ## Climbing a tree -/

variable {D : Nat} {node : Nat → Nat → H}

/-- A node and its sibling are the children of their parent. -/
theorem stepPair_sibling (d p : Nat) : stepPair (p % 2 == 1, node d (siblingOffset p)) (node d p) =
      (node d (2 * (p / 2)), node d (2 * (p / 2) + 1)) := by
  rcases Nat.mod_two_eq_zero_or_one p with h | h
  · have h0 : 2 * (p / 2) = p := by omega
    simp [stepPair, siblingOffset, h, h0]
  · have h1 : 2 * (p / 2) + 1 = p := by omega
    have h0 : 2 * (p / 2) = p - 1 := by omega
    simp [stepPair, siblingOffset, h, h0]
    congr 1
    omega

/-- Climbing from a node with the tree's own siblings leads to its ancestor. -/
theorem climb_path (htree : IsTree combine D node) {m : Nat} (hd : d + m ≤ D) (hp : p < 2 ^ (d + m))
    : climb combine (stepsOf p (pathSiblings node d m p)) (node (d + m) p) = node d (p / 2 ^ m) := by
  induction m generalizing p with
  | zero => simp [climb, stepsOf, pathSiblings]
  | succ m ih =>
    have hp2 : p / 2 < 2 ^ (d + m) := by
      rw [← Nat.add_assoc, Nat.pow_succ] at hp
      omega
    rw [pathSiblings, stepsOf, climb, show d + (m + 1) = d + m + 1 from rfl, stepPair_sibling,
      ← htree _ _ (by omega) hp2, ih (by omega) hp2, Nat.div_div_eq_div_mul, ← Nat.pow_succ']

/-- A climb that ends at a node of the tree started at the node that the sides
lead down to. -/
theorem climb_eq_node (htree : IsTree combine D node) {steps : List (ClimbStep H)} {cur : H}
    {q : Nat} (hd : d + steps.length ≤ D) (hq : q < 2 ^ d)
    (hclash : NoClash combine D node (climbPairs combine steps cur))
    (h : climb combine steps cur = node d q) :
    cur = node (d + steps.length) (q * 2 ^ steps.length + stepsOffset steps) := by
  induction steps generalizing cur with
  | nil => simpa [climb, stepsOffset] using h
  | cons step steps ih =>
    rw [List.length_cons] at hd ⊢
    have hparent := ih (by omega) (fun pair hpair => hclash pair (List.mem_cons_of_mem _ hpair)) h
    have hlt := stepsOffset_lt steps
    generalize steps.length = m at hd hparent hlt ⊢
    have hoff : q * 2 ^ m + stepsOffset steps < 2 ^ (d + m) :=
      calc q * 2 ^ m + stepsOffset steps < (q + 1) * 2 ^ m := by rw [Nat.succ_mul]; omega
        _ ≤ 2 ^ d * 2 ^ m := Nat.mul_le_mul_right _ hq
        _ = 2 ^ (d + m) := (Nat.pow_add ..).symm
    rw [htree _ _ (by omega) hoff] at hparent
    have hpair := hclash _ List.mem_cons_self (d + m) _ (by omega) hoff hparent
    have hq2 : q * 2 ^ (m + 1) = 2 * (q * 2 ^ m) := by rw [Nat.pow_succ]; ring
    rw [stepsOffset, hq2, show d + (m + 1) = d + m + 1 from rfl]
    obtain ⟨side, sib⟩ := step
    cases side with
    | false =>
      rw [(Prod.mk.inj hpair).1]
      congr 1
      simp only [Bool.toNat_false]
      ring
    | true =>
      rw [(Prod.mk.inj hpair).2]
      congr 1
      simp only [Bool.toNat_true]
      ring

/-! ## Two climbs, two trees -/

theorem sides_stepsOf {sibs sibs' : List H} (h : sibs.length = sibs'.length) :
    (stepsOf index sibs).map Prod.fst = (stepsOf index sibs').map Prod.fst := by
  induction sibs generalizing index sibs' with
  | nil =>
    obtain rfl : sibs' = [] := List.length_eq_zero_iff.mp h.symm
    rfl
  | cons sib sibs ih =>
    obtain ⟨sib', rest', rfl⟩ := List.exists_cons_of_length_eq_add_one h.symm
    rw [stepsOf, stepsOf, List.map_cons, List.map_cons, ih (Nat.succ.inj h)]

/-- Two climbs along the same sides to one end started at the same digest, if
the pairs they combine do not collide. -/
theorem climb_inj {steps steps' : List (ClimbStep H)} {cur cur' : H}
    (hsides : steps.map Prod.fst = steps'.map Prod.fst)
    (hclash : ∀ pair ∈ climbPairs combine steps cur, ∀ pair' ∈ climbPairs combine steps' cur',
      combine pair.1 pair.2 = combine pair'.1 pair'.2 → pair = pair')
    (h : climb combine steps cur = climb combine steps' cur') : cur = cur' := by
  induction steps generalizing steps' cur cur' with
  | nil =>
    obtain rfl : steps' = [] := List.map_eq_nil_iff.mp hsides.symm
    exact h
  | cons step steps ih =>
    obtain ⟨step', rest', rfl, hstep, hrest⟩ := List.map_eq_cons_iff.mp hsides.symm
    have hparent := ih hrest.symm (fun pair hpair pair' hpair' =>
      hclash pair (List.mem_cons_of_mem _ hpair) pair' (List.mem_cons_of_mem _ hpair')) h
    have hpair := hclash _ List.mem_cons_self _ List.mem_cons_self hparent
    obtain ⟨side, sib⟩ := step
    obtain ⟨side', sib'⟩ := step'
    obtain rfl : side' = side := hstep
    cases side' with
    | false => exact (Prod.mk.inj hpair).1
    | true => exact (Prod.mk.inj hpair).2

/-- Two trees with one root are equal, if their pairs do not collide. -/
theorem node_eq_of_root_eq {node' : Nat → Nat → H} (htree : IsTree combine D node)
    (htree' : IsTree combine D node') (hclash : ∀ d p, d < D → p < 2 ^ d →
      combine (node (d + 1) (2 * p)) (node (d + 1) (2 * p + 1)) =
        combine (node' (d + 1) (2 * p)) (node' (d + 1) (2 * p + 1)) →
      (node (d + 1) (2 * p), node (d + 1) (2 * p + 1)) =
        (node' (d + 1) (2 * p), node' (d + 1) (2 * p + 1))) (hroot : node 0 0 = node' 0 0)
    (hd : d ≤ D) (hp : p < 2 ^ d) : node d p = node' d p := by
  induction d generalizing p with
  | zero =>
    obtain rfl : p = 0 := by simpa using hp
    exact hroot
  | succ d ih =>
    have hp2 : p / 2 < 2 ^ d := by
      rw [Nat.pow_succ] at hp
      omega
    have hparent := ih (by omega) hp2
    rw [htree _ _ (by omega) hp2, htree' _ _ (by omega) hp2] at hparent
    have hpair := Prod.mk.inj (hclash d _ (by omega) hp2 hparent)
    rcases Nat.mod_two_eq_zero_or_one p with h | h
    · rw [show p = 2 * (p / 2) by omega]
      exact hpair.1
    · rw [show p = 2 * (p / 2) + 1 by omega]
      exact hpair.2

end

end Qau
