import Qau.FinalityRun

/-!
# What the pruning of epoch records keeps

Recording an epoch root and recording an epoch's VRF accumulator both prune
old entries once more than ten are held. The cutoff for roots stays below
the justified and the finalized epoch only when these are past epoch 1;
before that it is the epoch being recorded. The cutoff for accumulators is
at most three below the epoch being recorded, and the election of an epoch
reads the accumulator of two epochs before, so only elections from one below
the recorded epoch on, or after the finalized epoch, are sure to find theirs.
`epoch_records_kept` states both, and that nothing else is kept.
-/

namespace Qau.Consensus

variable {q : QPOS} {epoch e : Epoch}

namespace QPOS

/-! ## VRF accumulators -/

/-- The cutoff of the pruning. The subtraction wraps below epoch 3. -/
def accumulatorPruneCutoff (q : QPOS) (epoch : Epoch) : Epoch :=
  let pruneCutoff := if q.finalizedEpoch > 1 then q.finalizedEpoch - 1 else epoch
  let maxSafeCutoff := epoch - 3
  if pruneCutoff > maxSafeCutoff then maxSafeCutoff else pruneCutoff

def setEpochVRFAccumulator (q : QPOS) (epoch : Epoch) (accOnChain : Hash) : QPOS :=
  let accs := q.epochVRFAccumulator.insert epoch accOnChain
  { q with epochVRFAccumulator :=
      if accs.size > 10 then accs.filter fun e _ => !decide (e < q.accumulatorPruneCutoff epoch)
      else accs }

/-- `AccumulateVRFOutput`: mixes an output into the accumulator and ends as
`SetEpochVRFAccumulator` does; an empty output is skipped. -/
def accumulateVRFOutput (q : QPOS) (epoch : Epoch) (vrfOutput : Hash) : QPOS :=
  if vrfOutput = zeroHash then q
  else q.setEpochVRFAccumulator epoch
    (List.Vector.map₂ (· ^^^ ·) ((q.epochVRFAccumulator[epoch]?).getD zeroHash) vrfOutput)

end QPOS

open QPOS

/-- `epochSrcEpoch`: the epoch whose accumulator an election reads, from
epoch 2 on. -/
def epochSrcEpoch (epoch : Epoch) : Epoch := if epoch < 2 then 0 else epoch - 2

/-! ## What is kept -/

/-- The recording of a root leaves the root of epoch `x`, or replaces it by
the one it records. -/
def KeepsRoot (env : Env) (q : QPOS) (epoch : Epoch) (root : Hash) (x : Epoch) : Prop :=
  (q.setEpochBlockRoot env epoch root).getEpochBlockRoot x = q.getEpochBlockRoot x ∨
    x = epoch ∧ (q.setEpochBlockRoot env epoch root).getEpochBlockRoot x = root

/-- The accumulator that the election of epoch `e` reads is not dropped. -/
def KeepsSource (q q' : QPOS) (e : Epoch) : Prop :=
  (q.epochVRFAccumulator[epochSrcEpoch e]?).isSome →
    (q'.epochVRFAccumulator[epochSrcEpoch e]?).isSome

/-- At most ten roots are held afterwards, or the checkpoints have left the
first epochs, or the epoch is not above them. -/
def RootsSafe (q : QPOS) (epoch : Epoch) (root : Hash) : Prop :=
  (q.epochBlockRoots.insert epoch root).size ≤ 10 ∨ (1 < q.justifiedEpoch ∧ 1 < q.finalizedEpoch) ∨
    (q.justifiedEpoch = 2 ∧ q.finalizedEpoch = 1) ∨
    (epoch ≤ q.finalizedEpoch ∧ q.finalizedEpoch ≤ q.justifiedEpoch)

/-- At most ten accumulators are held afterwards, or the election is for an
epoch after the finalized one, or reads at most three epochs below the
recorded one; before epoch 2 is final, the recorded epoch or a later one. -/
def SourceSafe (q : QPOS) (epoch : Epoch) (e : Epoch) : Prop :=
  (q.epochVRFAccumulator.insert epoch zeroHash).size ≤ 10 ∨
    (1 < q.finalizedEpoch ∧ q.finalizedEpoch < e) ∨ epoch - 3 ≤ e - 2 ∨
    (q.finalizedEpoch ≤ 1 ∧ epoch ≤ e - 2)

theorem not_lt_epochPruneCutoff (h : (1 < q.justifiedEpoch ∧ 1 < q.finalizedEpoch) ∨
    (q.justifiedEpoch = 2 ∧ q.finalizedEpoch = 1) ∨
    (epoch ≤ q.finalizedEpoch ∧ q.finalizedEpoch ≤ q.justifiedEpoch)) :
    ¬ q.justifiedEpoch < q.epochPruneCutoff epoch ∧
      ¬ q.finalizedEpoch < q.epochPruneCutoff epoch := by
  unfold epochPruneCutoff
  dsimp only
  generalize q.justifiedEpoch = j at h ⊢
  generalize q.finalizedEpoch = f at h ⊢
  grind

theorem lt_epochPruneCutoff (hle : q.finalizedEpoch ≤ q.justifiedEpoch)
    (h : ¬ ((1 < q.justifiedEpoch ∧ 1 < q.finalizedEpoch) ∨
      (q.justifiedEpoch = 2 ∧ q.finalizedEpoch = 1) ∨
      (epoch ≤ q.finalizedEpoch ∧ q.finalizedEpoch ≤ q.justifiedEpoch))) :
    q.justifiedEpoch < q.epochPruneCutoff epoch ∨
      q.finalizedEpoch < q.epochPruneCutoff epoch := by
  unfold epochPruneCutoff
  dsimp only
  generalize q.justifiedEpoch = j at h hle ⊢
  generalize q.finalizedEpoch = f at h hle ⊢
  grind

/-- The cutoff for accumulators is at most the source of an election exactly
under the last conditions of `SourceSafe`. -/
theorem not_lt_accumulatorPruneCutoff_iff (he : 2 ≤ e) :
    ¬ epochSrcEpoch e < q.accumulatorPruneCutoff epoch ↔
      (1 < q.finalizedEpoch ∧ q.finalizedEpoch < e) ∨ epoch - 3 ≤ e - 2 ∨
        (q.finalizedEpoch ≤ 1 ∧ epoch ≤ e - 2) := by
  unfold epochSrcEpoch accumulatorPruneCutoff
  dsimp only
  generalize q.finalizedEpoch = f
  rw [if_neg (UInt64.not_lt.mpr he)]
  generalize epoch - 3 = low
  by_cases h1 : 1 < f
  · rw [if_pos h1]
    have hsub : f < e ↔ f - 1 ≤ e - 2 := by grind
    rw [hsub]
    split_ifs <;> grind
  · rw [if_neg h1]
    split_ifs <;> grind

theorem keepsRoot_of_not_pruned (env : Env) {root : Hash} {x : Epoch}
    (h : ¬ ((q.epochBlockRoots.insert epoch root).size > 10 ∧ x < q.epochPruneCutoff epoch)) :
    KeepsRoot env q epoch root x := by
  unfold KeepsRoot
  rcases setEpochBlockRoot_spec env q epoch root with ⟨-, heq⟩ | ⟨-, -, -, hroots⟩
  · rw [heq]
    exact .inl rfl
  · rw [hroots x, if_neg h]
    split_ifs with hx
    · exact .inr ⟨hx.symm, rfl⟩
    · exact .inl rfl

theorem not_keepsRoot {root : Hash} {x : Epoch} (hroot : root ≠ zeroHash)
    (hx : q.getEpochBlockRoot x ≠ zeroHash) (hfix : q.finalizedRootFixed epoch root = false)
    (h : (q.epochBlockRoots.insert epoch root).size > 10 ∧ x < q.epochPruneCutoff epoch) :
    ¬ KeepsRoot env q epoch root x := by
  unfold KeepsRoot getEpochBlockRoot at *
  rw [getElem?_setEpochBlockRoot hfix, if_pos h]
  rintro (hold | ⟨-, hnew⟩)
  · exact hx hold.symm
  · exact hroot hnew.symm

/-- Recording an accumulator keeps the recorded source of an election exactly
if it is safe. -/
theorem keepsSource_set_iff (acc : Hash) (he : 2 ≤ e)
    (hsome : (q.epochVRFAccumulator[epochSrcEpoch e]?).isSome) :
    KeepsSource q (q.setEpochVRFAccumulator epoch acc) e ↔ SourceSafe q epoch e := by
  have hins : ((q.epochVRFAccumulator.insert epoch acc)[epochSrcEpoch e]?).isSome := by
    rw [Fmap.getElem?_insert]
    split_ifs
    · rfl
    · exact hsome
  obtain ⟨v, hv⟩ := Option.isSome_iff_exists.mp hins
  have hsize : (q.epochVRFAccumulator.insert epoch acc).size =
      (q.epochVRFAccumulator.insert epoch zeroHash).size := by
    rw [Std.ExtTreeMap.size_insert, Std.ExtTreeMap.size_insert]
  unfold SourceSafe KeepsSource setEpochVRFAccumulator
  rw [← not_lt_accumulatorPruneCutoff_iff he, ← hsize]
  dsimp only
  split_ifs with hprune
  · rw [Std.ExtTreeMap.getElem?_filter', hv]
    simp [hsome, Option.filter, hprune]
  · simp [hv, not_lt.mp hprune]

/-- Safe updates drop neither the root of the justified or of the finalized
epoch nor the accumulator of an election, and others do drop one of them if
it is recorded. -/
theorem epoch_records_kept (env : Env) (q : QPOS) (epoch : Epoch) :
    (∀ root, RootsSafe q epoch root → KeepsRoot env q epoch root q.justifiedEpoch ∧
      KeepsRoot env q epoch root q.finalizedEpoch) ∧
    (∀ e, 2 ≤ e → SourceSafe q epoch e →
      (∀ acc, KeepsSource q (q.setEpochVRFAccumulator epoch acc) e) ∧
      ∀ out, KeepsSource q (q.accumulateVRFOutput epoch out) e) ∧
    (∀ root, root ≠ zeroHash → q.finalizedEpoch ≤ q.justifiedEpoch →
      q.getEpochBlockRoot q.justifiedEpoch ≠ zeroHash →
      q.getEpochBlockRoot q.finalizedEpoch ≠ zeroHash → ¬ RootsSafe q epoch root →
      ¬ (KeepsRoot env q epoch root q.justifiedEpoch ∧
        KeepsRoot env q epoch root q.finalizedEpoch)) ∧
    ∀ e acc, 2 ≤ e → (q.epochVRFAccumulator[epochSrcEpoch e]?).isSome → ¬ SourceSafe q epoch e →
      ¬ KeepsSource q (q.setEpochVRFAccumulator epoch acc) e := by
  have hset (e : Epoch) (acc : Hash) (he : 2 ≤ e) (h : SourceSafe q epoch e) :
      KeepsSource q (q.setEpochVRFAccumulator epoch acc) e :=
    fun hsome => (keepsSource_set_iff acc he hsome).mpr h hsome
  refine ⟨fun root h => ?_, fun e he h => ⟨fun acc => hset e acc he h, fun out => ?_⟩, ?_, ?_⟩
  · rcases h with hsize | h
    · exact ⟨keepsRoot_of_not_pruned env fun hp => absurd hp.1 (Nat.not_lt.mpr hsize),
        keepsRoot_of_not_pruned env fun hp => absurd hp.1 (Nat.not_lt.mpr hsize)⟩
    · obtain ⟨hj, hf⟩ := not_lt_epochPruneCutoff h
      exact ⟨keepsRoot_of_not_pruned env fun hp => hj hp.2,
        keepsRoot_of_not_pruned env fun hp => hf hp.2⟩
  · unfold accumulateVRFOutput
    split_ifs
    · exact id
    · exact hset e _ he h
  · rintro root hroot hle hj hf hbad ⟨hkj, hkf⟩
    unfold RootsSafe at hbad
    rw [not_or, not_le] at hbad
    have hfix : q.finalizedRootFixed epoch root = false := by
      by_contra hfix
      have hepoch : epoch = q.finalizedEpoch := by simp_all [finalizedRootFixed]
      exact hbad.2 (.inr (.inr ⟨UInt64.le_of_eq hepoch, hle⟩))
    rcases lt_epochPruneCutoff hle hbad.2 with hlt | hlt
    · exact not_keepsRoot hroot hj hfix ⟨hbad.1, hlt⟩ hkj
    · exact not_keepsRoot hroot hf hfix ⟨hbad.1, hlt⟩ hkf
  · exact fun e acc he hsome hbad hkeep => hbad ((keepsSource_set_iff acc he hsome).mp hkeep)

/-- Ten roots and ten accumulators on a chain that never justified an epoch. -/
def stalledNode : QPOS :=
  (List.range 10).foldl (fun q e =>
    (q.setEpochBlockRoot (clockAt 0) (UInt64.ofNat e) (checkpointRoot 9)).setEpochVRFAccumulator
      (UInt64.ofNat e) (checkpointRoot 9)) (startQPOS [] 0 (checkpointRoot 9))

theorem epoch_records_kept_ten :
    KeepsRoot (clockAt 0) stalledNode 9 (checkpointRoot 9) 0 ∧
      KeepsSource stalledNode (stalledNode.setEpochVRFAccumulator 10 zeroHash) 9 := by
  exact ⟨((epoch_records_kept (clockAt 0) stalledNode 9).1 (checkpointRoot 9)
      (.inl (by decide +kernel))).1,
    ((epoch_records_kept (clockAt 0) stalledNode 10).2.1 9 (by decide)
      (.inr (.inr (.inl (by decide))))).1 zeroHash⟩

/-- The eleventh record: the justified root is dropped, and epoch 8 is kept
without the accumulator that its election reads. -/
theorem epoch_records_dropped :
    (stalledNode.getEpochBlockRoot stalledNode.justifiedEpoch = checkpointRoot 9 ∧
      (stalledNode.setEpochBlockRoot (clockAt 0) 10 (checkpointRoot 9)).getEpochBlockRoot
        stalledNode.justifiedEpoch = zeroHash) ∧
    ((stalledNode.setEpochVRFAccumulator 10
        (checkpointRoot 9)).epochVRFAccumulator[(8 : Epoch)]?).isSome ∧
      ¬ KeepsSource stalledNode (stalledNode.setEpochVRFAccumulator 10 (checkpointRoot 9)) 8 := by
  refine ⟨by decide +kernel, by decide +kernel, fun h => ?_⟩
  exact absurd (h (by decide +kernel)) (by decide +kernel)

/-! ## Recording an epoch again -/

theorem not_lt_accumulatorPruneCutoff_self (h3 : 3 ≤ epoch) :
    ¬ epoch < q.accumulatorPruneCutoff epoch := by
  unfold accumulatorPruneCutoff
  grind

/-- Recording an epoch again forgets the value recorded before. -/
theorem set_setEpochVRFAccumulator (h3 : 3 ≤ epoch) (v w : Hash) :
    (q.setEpochVRFAccumulator epoch v).setEpochVRFAccumulator epoch w =
      q.setEpochVRFAccumulator epoch w := by
  have hkeep := not_lt_accumulatorPruneCutoff_self h3 (q := q)
  have hcut : (q.setEpochVRFAccumulator epoch v).accumulatorPruneCutoff epoch =
    q.accumulatorPruneCutoff epoch := rfl
  rw [setEpochVRFAccumulator, hcut]
  unfold setEpochVRFAccumulator
  dsimp only
  congr 1
  simp only [Std.ExtTreeMap.size_insert]
  refine Std.ExtTreeMap.ext_getElem? fun x => ?_
  rcases eq_or_ne epoch x with rfl | hx
  · split_ifs <;> simp [hkeep, Option.filter]
  · split_ifs <;> simp_all [Std.ExtTreeMap.getElem?_insert, Std.ExtTreeMap.size_insert] <;> omega

theorem accumulateVRFOutput_right_comm (h3 : 3 ≤ epoch) (x y : Hash) :
    (q.accumulateVRFOutput epoch x).accumulateVRFOutput epoch y =
      (q.accumulateVRFOutput epoch y).accumulateVRFOutput epoch x := by
  have hget : ∀ v, (q.setEpochVRFAccumulator epoch v).epochVRFAccumulator[epoch]? = some v := by
    intro v
    unfold setEpochVRFAccumulator
    dsimp only
    split_ifs <;> simp [not_lt_accumulatorPruneCutoff_self h3, Option.filter]
  unfold accumulateVRFOutput
  split_ifs
  · rfl
  · rfl
  · rfl
  · rw [hget, hget, set_setEpochVRFAccumulator h3, set_setEpochVRFAccumulator h3]
    congr 1
    refine List.Vector.ext fun i => ?_
    simp only [List.Vector.get_map₂, Option.getD_some]
    ac_rfl

/-- The recordings of an epoch converge: headers to the last value, outputs to
one state in every order. -/
theorem vrf_accumulator_converges (q : QPOS) (h3 : 3 ≤ epoch) :
    (∀ vs v, (vs ++ [v]).foldl (fun q v => q.setEpochVRFAccumulator epoch v) q =
      q.setEpochVRFAccumulator epoch v) ∧
    ∀ outs outs' : List Hash, outs.Perm outs' →
      outs.foldl (fun q x => q.accumulateVRFOutput epoch x) q =
        outs'.foldl (fun q x => q.accumulateVRFOutput epoch x) q := by
  refine ⟨fun vs v => ?_, fun outs outs' h =>
    h.foldl_eq' (fun x _ y _ q => accumulateVRFOutput_right_comm h3 x y) q⟩
  induction vs generalizing q with
  | nil => rfl
  | cons w vs ih => exact (ih _).trans (set_setEpochVRFAccumulator h3 w v)

theorem vrf_accumulator_converges_pruned : [checkpointRoot 1, checkpointRoot 2].foldl
    (fun q x => q.accumulateVRFOutput 10 x) stalledNode = [checkpointRoot 2, checkpointRoot 1].foldl
      (fun q x => q.accumulateVRFOutput 10 x) stalledNode :=
  (vrf_accumulator_converges stalledNode (by decide)).2 _ _ (.swap ..)

/-! ## Rolling a fork back -/

def QPOS.clearEpochVRFAccumulatorsFrom (q : QPOS) (fromEpoch : Epoch) : QPOS :=
  { q with epochVRFAccumulator := q.epochVRFAccumulator.filter fun e _ => !decide (e ≥ fromEpoch) }

/-- A fork that is rolled back leaves no trace where later elections read. -/
theorem vrf_rollback_forgets_fork {fromEpoch : Epoch} (fork : List (Epoch × Hash))
    (hfork : ∀ h ∈ fork, fromEpoch ≤ h.1) (h1 : 1 < q.finalizedEpoch)
    (he : q.finalizedEpoch - 1 ≤ e) :
    ((fork.foldl (fun q h => q.setEpochVRFAccumulator h.1 h.2) q).clearEpochVRFAccumulatorsFrom
        fromEpoch).epochVRFAccumulator[e]? =
      (q.clearEpochVRFAccumulatorsFrom fromEpoch).epochVRFAccumulator[e]? := by
  induction fork generalizing q with
  | nil => rfl
  | cons h fork ih =>
    have hkeep : ¬ e < q.accumulatorPruneCutoff h.1 := by
      unfold accumulatorPruneCutoff
      grind
    refine (ih (q := q.setEpochVRFAccumulator h.1 h.2) (by grind) h1 he).trans ?_
    unfold clearEpochVRFAccumulatorsFrom setEpochVRFAccumulator
    grind [Option.filter]

theorem vrf_rollback_forgets_fork_pruned :
    (({ stalledNode with finalizedEpoch := 2 }.setEpochVRFAccumulator 10
      zeroHash).clearEpochVRFAccumulatorsFrom 10).epochVRFAccumulator[(8 : Epoch)]? =
        some (checkpointRoot 9) :=
  (vrf_rollback_forgets_fork (q := { stalledNode with finalizedEpoch := 2 }) (e := 8)
    [(10, zeroHash)] (by simp) (by decide) (by decide)).trans (by decide +kernel)

end Qau.Consensus
