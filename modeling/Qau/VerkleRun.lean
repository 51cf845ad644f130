import Qau.VerkleInv

/-!
# Runs of `Put` and `Delete`

`step_spec` says that one call succeeds, which nodes it stores and what it
leaves at the root; with it `rep_step` takes a tree that stands for `T` to
one that stands for `T` after the call, and `rep_exec` is a run of calls
from the empty tree.
-/

namespace Qau

open StemTree

variable {T : StemTree} {r : Option TreeNode} {L : List TreeNode} {key k : Bytes} {op : TreeOp}
  {m : Bytes → Option Bytes} {ops : List TreeOp}

section
variable {sha3 : Bytes → Hash} {pdb : Kv} {P P' : Set (Bytes × Bytes)}

theorem reads_congr {t t' : VerkleTree} (hdb : t'.db = t.db) (h : Reads sha3 pdb t T) :
    Reads sha3 pdb t' T := by
  intro u hu
  rw [← h u hu]
  simp only [VerkleTree.getNode, hdb]

variable (sha3) in
/-- The tree a call leaves that stored `L` and found `r` for the root. -/
def VerkleTree.leave (t : VerkleTree) (r : Option TreeNode) (L : List TreeNode) : VerkleTree :=
  { t.stores sha3 L with rootNode := r }.recomputeRoot sha3

variable (sha3) in
/-- What a call on `t` that took `T` to `T'` stored and left at the root: a
root node of its own carries its child, the old one may be kept. -/
structure Called (t : VerkleTree) (T T' : StemTree) (r : Option TreeNode) (L : List TreeNode) :
    Prop where
  wrote : Wrote sha3 T T' L
  root : (r = none ∧ T' = .empty) ∨ ∃ n, r = some n ∧ Top sha3 n T' ∧
    (t.rootNode = some n ∨ (n.Loaded ∧ Matches sha3 n T'))

theorem Called.rep (hP' : Separate sha3 P') {t : VerkleTree} {T' : StemTree}
    (h : Rep sha3 pdb P t T) (hc : Called sha3 t T T' r L) (hwf : Radix.WF StemSize T')
    (hloc : Located sha3 [] T') (hok : LeavesOk sha3 P' T')
    (hcf : (t.leave sha3 r L).NoCollision sha3) : Rep sha3 pdb P' (t.leave sha3 r L) T' := by
  have hcf' : (t.stores sha3 L).NoCollision sha3 := by
    simpa [VerkleTree.NoCollision, VerkleTree.leave] using hcf
  have hcov := covers_of_wrote h.covers hc.wrote
  have hmono : ∀ m ∈ t.hashed, m ∈ (t.stores sha3 L).hashed :=
    fun m hm => mem_stores_hashed.mpr (.inl hm)
  refine ⟨hwf, hloc, hok, ?_, ?_, ?_, ?_⟩
  · exact reads_congr (by simp [VerkleTree.leave])
      (reads_of_wrote hP' h.reads hc.wrote hwf hloc hok hcov hcf')
  · simpa [VerkleTree.leave] using hcov
  · rw [VerkleTree.leave, recomputeRoot_rootNode]
    rcases hc.root with ⟨rfl, rfl⟩ | ⟨n, rfl, htop, hroot | ⟨-, hm⟩⟩
    · rfl
    · have hm := h.rootNode
      rw [hroot] at hm
      exact matches_of_top hcf' le_rfl h.wf hwf (h.covers.mono hmono) hcov hm htop
    · exact hm
  · rw [VerkleTree.leave, recomputeRoot_root]
    rcases hc.root with ⟨rfl, rfl⟩ | ⟨n, rfl, htop, -⟩
    · rfl
    · exact htop.hash_eq

section
variable {t : VerkleTree} {T : StemTree} (h : Rep sha3 pdb P t T)
include h

theorem Rep.root_cases (key : Bytes) : (t.rootNode = none ∧ T = .empty) ∨ ∃ n, t.rootNode = some n ∧
      Descends sha3 pdb t (keyToStem sha3 key) T treeFuel n [] (keyToStem sha3 key).toList := by
  have hroot := h.rootNode
  cases hn : t.rootNode with
  | none => rw [hn] at hroot; exact .inl ⟨rfl, hroot⟩
  | some n =>
    rw [hn] at hroot
    exact .inr ⟨n, rfl, hroot, (stem_length _).symm ▸ h.wf, h.reads, rfl,
      by rw [stem_length]; decide⟩

theorem put_spec (hkey : 0 < key.length ∧ key.length ≤ VerkleKeySize) (value : Bytes) :
    ∃ r L, t.put sha3 pdb key value = .ok (t.leave sha3 r L) ∧
      Called sha3 t T (put sha3 T key value) r L := by
  have hlen : ¬ (key.length = 0 ∨ VerkleKeySize < key.length) := by
    simp only [VerkleKeySize] at hkey ⊢
    omega
  rcases h.root_cases key with ⟨hn, rfl⟩ | ⟨n, hn, hdesc⟩
  · have hb := built_empty sha3 (keyToStem sha3 key).toList (newLeafNode key value)
      (.leaf (newLeafNode key value))
    refine ⟨some (.leaf (newLeafNode key value)), [.leaf (newLeafNode key value)], ?_,
      hb.toWrote, .inr ⟨_, rfl, hb.top, .inr ⟨trivial, .leaf⟩⟩⟩
    simp only [VerkleTree.put, if_neg hlen, hn, insert_none]
    rfl
  · obtain ⟨n', L, heq, hb⟩ := insert_spec key value rfl hdesc h.loc
    have hins : t.insert sha3 pdb treeFuel (some n) (keyToStem sha3 key) key value 0
        = some (n', t.stores sha3 L) := heq
    refine ⟨some n', L, ?_, hb.toWrote, .inr ⟨n', rfl, hb.top, ?_⟩⟩
    · simp only [VerkleTree.put, if_neg hlen, hn, hins]
      rfl
    · rcases hb.fresh with rfl | hfresh
      · exact .inl hn
      · exact .inr hfresh

theorem delete_spec (hkey : 0 < key.length ∧ key.length ≤ VerkleKeySize) :
    ∃ t', t.delete sha3 pdb key = .ok t' ∧ (t'.NoCollision sha3 →
      ∃ r L, t' = t.leave sha3 r L ∧ Called sha3 t T (delete sha3 T key) r L) := by
  have hlen : ¬ (key.length = 0 ∨ VerkleKeySize < key.length) := by
    simp only [VerkleKeySize] at hkey ⊢
    omega
  refine ⟨_, by simp only [VerkleTree.delete, if_neg hlen]; rfl, fun hcf => ?_⟩
  have hz : ∀ m ∈ (t.deleteNode sha3 pdb treeFuel t.rootNode (keyToStem sha3 key) key 0).2.hashed,
      sha3 m ≠ zeroHash := by
    intro m hm
    exact hcf.ne_zero (by simpa using hm)
  rcases h.root_cases key with ⟨hn, rfl⟩ | ⟨n, hn, hdesc⟩
  · rw [hn]
    exact ⟨none, [], rfl, Wrote.refl _, .inl ⟨rfl, rfl⟩⟩
  · rw [hn] at hz ⊢
    obtain ⟨r, L, heq, hw, hleft⟩ := deleteNode_spec hdesc hz
    have hdel : t.deleteNode sha3 pdb treeFuel (some n) (keyToStem sha3 key) key 0
        = (r, t.stores sha3 L) := heq
    refine ⟨r, L, by rw [hdel]; rfl, hw, ?_⟩
    rcases hleft with hnone | ⟨n', rfl, htop, rfl | hfresh⟩
    · exact .inl hnone
    · exact .inr ⟨n', rfl, htop, .inl hn⟩
    · exact .inr ⟨n', rfl, htop, .inr hfresh⟩

theorem step_spec (hkey : 0 < op.key.length ∧ op.key.length ≤ VerkleKeySize) :
    ∃ t', t.step sha3 pdb op = .ok t' ∧ (t'.NoCollision sha3 →
      ∃ r L, t' = t.leave sha3 r L ∧ Called sha3 t T (step sha3 T op) r L) := by
  cases op with
  | put key value =>
    obtain ⟨r, L, heq, hc⟩ := put_spec h hkey value
    exact ⟨_, heq, fun _ => ⟨r, L, rfl, hc⟩⟩
  | delete key => exact delete_spec h hkey

end

/-! ## What the entries are -/

/-- The entries a call leaves: the specification of the tree as a map. -/
def TreeOp.apply (m : Bytes → Option Bytes) : TreeOp → Bytes → Option Bytes
  | .put key value => Function.update m key (some value)
  | .delete key => Function.update m key none

/-- The entries after a run: the value of the last `Put` of a key that no
`Delete` of it follows. -/
def contents (ops : List TreeOp) : Bytes → Option Bytes :=
  ops.foldl TreeOp.apply fun _ => none

/-- A map as a set of entries. -/
def entries (m : Bytes → Option Bytes) : Set (Bytes × Bytes) := {e | m e.1 = some e.2}

theorem TreeOp.apply_of_ne (h : k ≠ op.key) : op.apply m k = m k := by
  cases op <;> exact Function.update_of_ne h ..

theorem entries_apply (m : Bytes → Option Bytes) (op : TreeOp) :
    ∀ e ∈ entries m, e.1 ≠ op.key → e ∈ entries (op.apply m) :=
  fun _ he hne => (TreeOp.apply_of_ne hne).trans he

theorem leavesOk_step (hP' : Separate sha3 (entries (op.apply m))) (hwf : Radix.WF StemSize T)
    (hloc : Located sha3 [] T) (hok : LeavesOk sha3 (entries m) T) :
    LeavesOk sha3 (entries (op.apply m)) (step sha3 T op) := by
  have hsub := entries_apply m op
  cases op with
  | put key value =>
    exact leavesOk_put hP' hwf hloc hok (by simp [entries, TreeOp.apply]) hsub
  | delete key => exact leavesOk_delete hwf hloc hok hsub

section
variable {m : Bytes → Option Bytes} {op : TreeOp} (hP : Separate sha3 (entries m))
  (hP' : Separate sha3 (entries (op.apply m))) {t : VerkleTree} {T : StemTree}
  (h : Rep sha3 pdb (entries m) t T)
include hP hP' h

theorem Called.rep_step (hc : Called sha3 t T (step sha3 T op) r L)
    (hcf : (t.leave sha3 r L).NoCollision sha3) :
    Rep sha3 pdb (entries (op.apply m)) (t.leave sha3 r L) (step sha3 T op) :=
  hc.rep hP' h (wf_step h.wf op) (located_step hP h.wf h.loc h.ok op)
    (leavesOk_step hP' h.wf h.loc h.ok) hcf

theorem rep_step (hkey : 0 < op.key.length ∧ op.key.length ≤ VerkleKeySize) :
    ∃ t', t.step sha3 pdb op = .ok t' ∧
      (t'.NoCollision sha3 → Rep sha3 pdb (entries (op.apply m)) t' (step sha3 T op)) := by
  obtain ⟨t', heq, hspec⟩ := step_spec h hkey
  refine ⟨t', heq, fun hcf => ?_⟩
  obtain ⟨r, L, rfl, hc⟩ := hspec hcf
  exact hc.rep_step hP hP' h hcf

end

variable (sha3) in
/-- The tree a run of calls builds. -/
noncomputable def StemTree.exec (T : StemTree) (ops : List TreeOp) : StemTree :=
  ops.foldl (step sha3) T

theorem stemExec_append (T : StemTree) (ops : List TreeOp) (op : TreeOp) :
    exec sha3 T (ops ++ [op]) = step sha3 (exec sha3 T ops) op := by
  simp [exec]

theorem contents_append (ops : List TreeOp) (op : TreeOp) :
    contents (ops ++ [op]) = op.apply (contents ops) := by
  simp [contents]

/-- In a run all of whose states have separate entries, every call succeeds
and the tree stands for the one the calls build. -/
theorem rep_exec (hkeys : ∀ op ∈ ops, 0 < op.key.length ∧ op.key.length ≤ VerkleKeySize)
    (hsep : ∀ pre, pre <+: ops → Separate sha3 (entries (contents pre)))
    (hcf : (newVerkleTree.exec sha3 pdb ops).NoCollision sha3) :
    Rep sha3 pdb (entries (contents ops)) (newVerkleTree.exec sha3 pdb ops)
      (exec sha3 .empty ops) := by
  induction ops using List.reverseRecOn with
  | nil => exact rep_new
  | append_singleton ops op ih =>
    have hpre : ops <+: ops ++ [op] := List.prefix_append ..
    rw [exec_append] at hcf ⊢
    have hrep := ih (fun o ho => hkeys o (List.mem_append_left _ ho))
      (fun pre h => hsep pre (h.trans hpre)) (hcf.mono exec_hashed)
    obtain ⟨t', heq, hrep'⟩ := rep_step (hsep ops hpre)
      (contents_append ops op ▸ hsep _ List.prefix_rfl) hrep
      (hkeys op (List.mem_append_right _ (List.mem_singleton.mpr rfl)))
    rw [exec_cons, heq] at hcf ⊢
    rw [stemExec_append, contents_append]
    exact hrep' hcf

theorem TreeOp.apply_eq_some {m : Bytes → Option Bytes} {op : TreeOp} {v : Bytes}
    (h : op.apply m k = some v) : op = .put k v ∨ m k = some v := by
  by_cases hk : k = op.key
  · subst hk
    cases op with
    | put key value =>
      have hv : value = v := by simpa [TreeOp.apply, TreeOp.key] using h
      exact .inl (by rw [← hv]; rfl)
    | delete key => simp [TreeOp.apply, TreeOp.key] at h
  · rw [TreeOp.apply_of_ne hk] at h
    exact .inr h

theorem put_mem_of_contents {v : Bytes} (h : contents ops k = some v) : .put k v ∈ ops := by
  induction ops using List.reverseRecOn with
  | nil => cases h
  | append_singleton ops op ih =>
    rw [contents_append] at h
    rcases TreeOp.apply_eq_some h with rfl | h
    · exact List.mem_append_right _ (List.mem_singleton.mpr rfl)
    · exact List.mem_append_left _ (ih h)

variable (sha3 pdb) in
/-- A run from the empty tree all of whose states have separate entries,
without a collision of SHA3-256. -/
structure SeparateRun (ops : List TreeOp) : Prop where
  keys : ∀ op ∈ ops, 0 < op.key.length ∧ op.key.length ≤ VerkleKeySize
  separate : ∀ pre, pre <+: ops → Separate sha3 (entries (contents pre))
  noCollision : (newVerkleTree.exec sha3 pdb ops).NoCollision sha3

theorem SeparateRun.rep (h : SeparateRun sha3 pdb ops) :
    Rep sha3 pdb (entries (contents ops)) (newVerkleTree.exec sha3 pdb ops)
      (exec sha3 .empty ops) := rep_exec h.keys h.separate h.noCollision

end

end Qau
