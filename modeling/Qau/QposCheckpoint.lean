import Qau.QposRun
import Qau.ReorgRoots

/-!
# What the calls do to the checkpoint

The justified and the finalized checkpoint, the epoch roots and the durable
copy, call by call. Five calls write them: the vote tally, the adoption of a
header's checkpoints, the recording of an epoch root, a reorg and a restore.
-/

namespace Qau.Consensus

open QPOS

variable {st : FinalityState} {root : Hash} {prevEpoch epoch : Epoch} {att : Attestation} {c : Call}
  {q q' : QPOS}

/-- A checkpoint record whose roots can be restored: set from epoch 1 on,
and equal for equal epochs. -/
structure FinalityState.Rooted (st : FinalityState) : Prop where
  justified : 0 < st.justifiedEpoch → st.justifiedRoot ≠ zeroHash
  finalized : 0 < st.finalizedEpoch → st.finalizedRoot ≠ zeroHash
  equal : 0 < st.justifiedEpoch → st.finalizedEpoch = st.justifiedEpoch →
    st.justifiedRoot = st.finalizedRoot

/-- The durable copy is kept, or is the new checkpoint. -/
def Persists (q q' : QPOS) : Prop :=
  q'.persisted = q.persisted ∨ q'.persisted = some q'.finality ∧ q'.finality.Rooted

theorem QPOS.fields_of_finality (h : q.finality = st) :
    q.justifiedEpoch = st.justifiedEpoch ∧ q.finalizedEpoch = st.finalizedEpoch ∧
      q.justifiedRoot = st.justifiedRoot ∧ q.finalizedRoot = st.finalizedRoot := by
  subst h
  exact ⟨rfl, rfl, rfl, rfl⟩

theorem QPOS.roots_of_eq (h : q'.epochBlockRoots = q.epochBlockRoots) (e : Epoch) :
    q'.getEpochBlockRoot e = q.getEpochBlockRoot e := by
  unfold getEpochBlockRoot
  rw [h]

/-- The checkpoints and the epoch roots are the same. -/
structure SameCheckpoint (q q' : QPOS) : Prop where
  finality : q'.finality = q.finality
  epochBlockRoots : q'.epochBlockRoots = q.epochBlockRoots

namespace SameCheckpoint

variable {q q' q'' : QPOS}

theorem refl (q : QPOS) : SameCheckpoint q q := ⟨rfl, rfl⟩

section
variable (h : SameCheckpoint q q')
include h

theorem trans (h' : SameCheckpoint q' q'') : SameCheckpoint q q'' :=
  ⟨h'.finality.trans h.finality, h'.epochBlockRoots.trans h.epochBlockRoots⟩

theorem justifiedEpoch : q'.justifiedEpoch = q.justifiedEpoch :=
  congrArg FinalityState.justifiedEpoch h.finality

theorem justifiedRoot : q'.justifiedRoot = q.justifiedRoot :=
  congrArg FinalityState.justifiedRoot h.finality

theorem finalizedEpoch : q'.finalizedEpoch = q.finalizedEpoch :=
  congrArg FinalityState.finalizedEpoch h.finality

theorem finalizedRoot : q'.finalizedRoot = q.finalizedRoot :=
  congrArg FinalityState.finalizedRoot h.finality

theorem getEpochBlockRoot (e : Epoch) : q'.getEpochBlockRoot e = q.getEpochBlockRoot e :=
  roots_of_eq h.epochBlockRoots e

end

end SameCheckpoint

namespace QPOS

variable {env : Env} {q : QPOS}

/-! ## The durable copy -/

theorem canonicalCheckpoint_eq_true {e : Epoch} : q.canonicalCheckpoint e root = true ↔
      e = 0 ∨ q.getEpochBlockRoot e ≠ zeroHash ∧ q.getEpochBlockRoot e = root := by
  simp only [canonicalCheckpoint, Bool.or_eq_true, Bool.and_eq_true, decide_eq_true_eq]

theorem rooted_of_canonical (h : q.hasCanonicalFinalityRoots = true) : q.finality.Rooted := by
  obtain ⟨hj, hf⟩ := Bool.and_eq_true_iff.mp h
  have hj : ∀ hpos : 0 < q.justifiedEpoch, q.getEpochBlockRoot q.justifiedEpoch ≠ zeroHash ∧
      q.getEpochBlockRoot q.justifiedEpoch = q.justifiedRoot := fun hpos =>
    (canonicalCheckpoint_eq_true.mp hj).resolve_left (UInt64.pos_iff_ne_zero.mp hpos)
  have hf : ∀ hpos : 0 < q.finalizedEpoch, q.getEpochBlockRoot q.finalizedEpoch ≠ zeroHash ∧
      q.getEpochBlockRoot q.finalizedEpoch = q.finalizedRoot := fun hpos =>
    (canonicalCheckpoint_eq_true.mp hf).resolve_left (UInt64.pos_iff_ne_zero.mp hpos)
  refine ⟨fun hpos hz => ?_, fun hpos hz => ?_, ?_⟩
  · exact (hj hpos).1 ((hj hpos).2.trans hz)
  · exact (hf hpos).1 ((hf hpos).2.trans hz)
  intro hpos heq
  have heq : q.finalizedEpoch = q.justifiedEpoch := heq
  have hfin := (hf (heq ▸ hpos)).2
  rw [heq] at hfin
  exact (hj hpos).2.symm.trans hfin

theorem persistFinality_checkpoint (env : Env) (q : QPOS) :
    SameCheckpoint q (q.persistFinality env) ∧ Persists q (q.persistFinality env) := by
  unfold persistFinality
  split_ifs with hp hc hpend hd
  · exact ⟨.refl q, .inl rfl⟩
  · exact ⟨⟨rfl, rfl⟩, .inl rfl⟩
  · exact ⟨.refl q, .inl rfl⟩
  · exact ⟨⟨rfl, rfl⟩, .inl rfl⟩
  · have hrooted : q.finality.Rooted := rooted_of_canonical (by simpa using hc)
    exact ⟨⟨rfl, rfl⟩, .inr ⟨rfl, hrooted⟩⟩

theorem pin_persist_checkpoint (env : Env) (q : QPOS) :
    SameCheckpoint q (q.pinFinalizedCheckpointSlot.persistFinality env) ∧
      Persists q (q.pinFinalizedCheckpointSlot.persistFinality env) := by
  obtain ⟨pin, hpin⟩ := pinFinalizedCheckpointSlot_eq q
  obtain ⟨hsame, hper⟩ := persistFinality_checkpoint env q.pinFinalizedCheckpointSlot
  have hq : SameCheckpoint q q.pinFinalizedCheckpointSlot := by
    rw [hpin]
    exact ⟨rfl, rfl⟩
  have hold : q.pinFinalizedCheckpointSlot.persisted = q.persisted := by rw [hpin]
  refine ⟨hq.trans hsame, ?_⟩
  unfold Persists at hper
  rwa [hold] at hper

/-! ## The tally -/

theorem tally_spec (q : QPOS) (prevEpoch : Epoch) :
    TallyOf Attestation.validatorIndex (q.weightOf prevEpoch)
      ((slotsOf prevEpoch).flatMap fun slot =>
        (q.storedAt slot).filter (q.counts prevEpoch slot)) (q.tally prevEpoch) := by
  unfold tally
  rw [← List.foldl_flatMap]
  exact (TallyOf.nil _).foldl fun att hatt => hatt

theorem supermajority_spec (h : q.supermajority prevEpoch = true) :
    ∃ voters : List Int, voters.Nodup ∧ 3 ≤ voters.length ∧
      (∀ idx ∈ voters, ∃ slot ∈ slotsOf prevEpoch, ∃ att ∈ q.storedAt slot,
        q.counts prevEpoch slot att = true ∧ att.validatorIndex = idx) ∧
      q.totalWeight prevEpoch * 2 ≤ (voters.map (q.weightOf prevEpoch)).sum * 3 := by
  have ht := tally_spec q prevEpoch
  unfold supermajority at h
  obtain ⟨hmin, hweight⟩ := Bool.and_eq_true_iff.mp h
  have hmin := of_decide_eq_true hmin
  have hweight := of_decide_eq_true hweight
  refine ⟨(q.tally prevEpoch).1, ht.nodup, le_trans ?_ hmin, fun idx hidx => ?_, ?_⟩
  · unfold computeMinAttestations minAttestations
    split_ifs with h0 h3
    · exact le_refl 3
    · exact le_refl 3
    · exact Nat.le_of_not_lt h3
  · obtain ⟨att, hatt, heq⟩ := ht.cast idx hidx
    obtain ⟨slot, hslot, hmem⟩ := List.mem_flatMap.mp hatt
    obtain ⟨hst, hc⟩ := List.mem_filter.mp hmem
    exact ⟨slot, hslot, att, hst, hc, heq⟩
  · rw [← ht.total]
    exact hweight

theorem counts_eq_true {slot : Slot} (h : q.counts prevEpoch slot att = true) :
    att.target = ⟨prevEpoch, q.getEpochBlockRoot prevEpoch⟩ ∧
      q.getEpochBlockRoot prevEpoch ≠ zeroHash ∧
      att.source.epoch < prevEpoch ∧ att.source.epoch ≤ q.justifiedEpoch ∧
      (0 < att.source.epoch → att.source.root = q.getEpochBlockRoot att.source.epoch ∧
        q.getEpochBlockRoot att.source.epoch ≠ zeroHash) ∧
      att.validatorIndex ∉ q.slashedValidators ∧
      ∃ v, q.validatorAt att.validatorIndex = some v ∧ v.active = true := by
  simp only [counts, Bool.and_eq_true, Bool.or_eq_true, decide_eq_true_eq] at h
  obtain ⟨⟨⟨⟨⟨⟨⟨⟨ht, hst⟩, hj⟩, hs⟩, hroot⟩, htr⟩, -⟩, hsl⟩, hv⟩ := h
  refine ⟨?_, hroot, ht ▸ hst, hj, fun hpos => ?_, hsl, ?_⟩
  · rw [← htr, ← ht]
  · obtain ⟨hne, heq⟩ := hs.resolve_left (UInt64.pos_iff_ne_zero.mp hpos)
    exact ⟨heq, hne⟩
  · split at hv
    · cases hv
    · next v hvv => exact ⟨v, hvv, hv⟩

theorem tryUpdateFinality_cases (env : Env) (q : QPOS) : q.tryUpdateFinality env = q ∨
      ∃ prevEpoch, 0 < prevEpoch ∧ prevEpoch = q.currentFinalityEpoch env - 1 ∧
        q.supermajority prevEpoch = true ∧
        SameCheckpoint (q.advanceCheckpoints prevEpoch) (q.tryUpdateFinality env) ∧
        Persists (q.advanceCheckpoints prevEpoch) (q.tryUpdateFinality env) := by
  unfold tryUpdateFinality
  dsimp only
  split_ifs with h2 hw hn hs
  · exact .inl rfl
  · exact .inl rfl
  · exact .inl rfl
  · exact .inl rfl
  · obtain ⟨hsame, hper⟩ :=
      pin_persist_checkpoint env (q.advanceCheckpoints (q.currentFinalityEpoch env - 1))
    refine .inr ⟨_, ?_, rfl, by simpa using hs, hsame, hper⟩
    have h2 := UInt64.not_lt.mp h2
    grind

/-- What the vote tally does to the checkpoints. -/
structure Advances (q q' : QPOS) : Prop where
  epochBlockRoots : q'.epochBlockRoots = q.epochBlockRoots
  persists : Persists q q'
  justified : (q'.justifiedEpoch = q.justifiedEpoch ∧ q'.justifiedRoot = q.justifiedRoot) ∨
    q.justifiedEpoch < q'.justifiedEpoch
  finalized : (q'.finalizedEpoch = q.finalizedEpoch ∧ q'.finalizedRoot = q.finalizedRoot) ∨
    (q'.finalizedEpoch = q.finalizedEpoch ∧ q.finalizedRoot = zeroHash ∧
      q'.finalizedRoot = q.getEpochBlockRoot q.finalizedEpoch) ∨
    (q.finalizedEpoch < q'.finalizedEpoch ∧ q'.finalizedEpoch = q.justifiedEpoch ∧
      q.justifiedEpoch < q'.justifiedEpoch ∧
      q'.finalizedRoot = q.getEpochBlockRoot q'.finalizedEpoch)

theorem Advances.refl (q : QPOS) : Advances q q :=
  ⟨rfl, .inl rfl, .inl ⟨rfl, rfl⟩, .inl ⟨rfl, rfl⟩⟩

theorem advanceCheckpoints_spec (hpos : 0 < prevEpoch) (hq' : q.advanceCheckpoints prevEpoch = q') :
    q'.epochBlockRoots = q.epochBlockRoots ∧ q'.persisted = q.persisted ∧
    (if q.justifiedEpoch < prevEpoch then
        q'.justifiedEpoch = prevEpoch ∧ q'.justifiedRoot = q.getEpochBlockRoot prevEpoch
      else q'.justifiedEpoch = q.justifiedEpoch ∧ q'.justifiedRoot = q.justifiedRoot) ∧
    ((q'.finalizedEpoch = q.finalizedEpoch ∧ q'.finalizedRoot = q.finalizedRoot) ∨
      (q'.finalizedEpoch = q.finalizedEpoch ∧ q.finalizedRoot = zeroHash ∧
        q'.finalizedRoot = q.getEpochBlockRoot q.finalizedEpoch) ∨
      (q.finalizedEpoch < q.justifiedEpoch ∧ q.justifiedEpoch + 1 = prevEpoch ∧
        q.justifiedEpoch < prevEpoch ∧ q'.finalizedEpoch = q.justifiedEpoch ∧
        q'.finalizedRoot = q.getEpochBlockRoot q.justifiedEpoch)) := by
  have hnext : q.justifiedEpoch = prevEpoch - 1 →
      q.justifiedEpoch + 1 = prevEpoch ∧ q.justifiedEpoch < prevEpoch := by
    intro h
    constructor <;> grind
  unfold advanceCheckpoints at hq'
  dsimp only at hq'
  by_cases hj : q.justifiedEpoch < prevEpoch
  · rw [if_pos hj]
    rw [if_pos (show prevEpoch > q.justifiedEpoch from hj)] at hq'
    dsimp only at hq'
    split_ifs at hq' with hprev hgt heq <;> subst hq'
    · exact ⟨rfl, rfl, ⟨rfl, rfl⟩, .inr (.inr ⟨hgt, (hnext hprev.2).1, hj, rfl, rfl⟩)⟩
    · refine ⟨rfl, rfl, ⟨rfl, rfl⟩, .inr (.inl ⟨rfl, heq.2, ?_⟩)⟩
      rw [← heq.1]
    · exact ⟨rfl, rfl, ⟨rfl, rfl⟩, .inl ⟨rfl, rfl⟩⟩
    · exact ⟨rfl, rfl, ⟨rfl, rfl⟩, .inl ⟨rfl, rfl⟩⟩
  · rw [if_neg hj]
    rw [if_neg (show ¬ prevEpoch > q.justifiedEpoch from hj)] at hq'
    rw [if_neg fun hprev => hj (hnext hprev.2).2] at hq'
    subst hq'
    exact ⟨rfl, rfl, ⟨rfl, rfl⟩, .inl ⟨rfl, rfl⟩⟩

theorem advances_tryUpdateFinality (env : Env) (q : QPOS) :
    Advances q (q.tryUpdateFinality env) := by
  rcases tryUpdateFinality_cases env q with heq | ⟨p, hpos, -, -, hsame, hper⟩
  · rw [heq]
    exact .refl q
  · obtain ⟨hroots, hpers, hj, hf⟩ := advanceCheckpoints_spec (q := q) hpos rfl
    refine ⟨hsame.epochBlockRoots.trans hroots, ?_, ?_, ?_⟩
    · unfold Persists at hper ⊢
      rwa [hpers] at hper
    · rw [hsame.justifiedEpoch, hsame.justifiedRoot]
      split_ifs at hj with hlt
      · rw [hj.1]
        exact .inr hlt
      · exact .inl hj
    · rw [hsame.justifiedEpoch, hsame.finalizedEpoch, hsame.finalizedRoot]
      rcases hf with hf | hf | ⟨hlt, -, hjlt, hfe, hfr⟩
      · exact .inl hf
      · exact .inr (.inl hf)
      · rw [if_pos hjlt] at hj
        rw [hfe, hj.1]
        exact .inr (.inr ⟨hlt, rfl, hjlt, hfr⟩)

/-! ## Headers -/

theorem adoptHeaderFinality_spec {j f : Epoch} {hash : Hash}
    (h : q' = q.adoptHeaderFinality env j f hash) :
    q'.epochBlockRoots = q.epochBlockRoots ∧ Persists q q' ∧
    (if q.justifiedEpoch < j then q'.justifiedEpoch = j
      else q'.justifiedEpoch = q.justifiedEpoch ∧ q'.justifiedRoot = q.justifiedRoot) ∧
    (if q.finalizedEpoch < f then q'.finalizedEpoch = f ∧
        q'.finalizedRoot = adoptCheckpointRoot (q.getEpochBlockRoot f) f hash
      else q'.finalizedEpoch = q.finalizedEpoch ∧ q'.finalizedRoot = q.finalizedRoot) := by
  subst h
  unfold adoptHeaderFinality
  by_cases hany : j > q.justifiedEpoch ∨ f > q.finalizedEpoch
  · rw [if_pos hany]
    obtain ⟨hsame, hper⟩ := pin_persist_checkpoint env
      { (q.adoptJustified j hash).adoptFinalized f hash with finalityPersistPending := true }
    have hpers : ((q.adoptJustified j hash).adoptFinalized f hash).persisted = q.persisted := by
      unfold adoptFinalized adoptJustified
      split_ifs <;> rfl
    refine ⟨?_, ?_, ?_, ?_⟩
    · rw [hsame.epochBlockRoots]
      unfold adoptFinalized adoptJustified
      split_ifs <;> rfl
    · unfold Persists at hper ⊢
      rwa [show ({ (q.adoptJustified j hash).adoptFinalized f hash with
        finalityPersistPending := true } : QPOS).persisted = q.persisted from hpers] at hper
    · rw [hsame.justifiedEpoch, hsame.justifiedRoot]
      unfold adoptFinalized adoptJustified
      by_cases hj : q.justifiedEpoch < j <;> by_cases hf : q.finalizedEpoch < f <;> simp [hj, hf]
    · rw [hsame.finalizedEpoch, hsame.finalizedRoot]
      unfold adoptFinalized adoptJustified
      by_cases hj : q.justifiedEpoch < j <;> by_cases hf : q.finalizedEpoch < f <;>
        simp [hj, hf, getEpochBlockRoot]
  · rw [if_neg hany]
    rw [not_or] at hany
    unfold adoptFinalized adoptJustified
    rw [if_neg hany.1, if_neg hany.2, if_neg hany.1, if_neg hany.2]
    exact ⟨rfl, .inl rfl, ⟨rfl, rfl⟩, rfl, rfl⟩

/-! ## Epoch roots -/

theorem setEpochBlockRoot_spec (env : Env) (q : QPOS) (epoch : Epoch) (root : Hash) :
    (q.finalizedRootFixed epoch root = true ∧ q.setEpochBlockRoot env epoch root = q) ∨
      (q.finalizedRootFixed epoch root = false ∧
        (q.setEpochBlockRoot env epoch root).finality = (q.recordEpochRoot epoch root).finality ∧
        Persists q (q.setEpochBlockRoot env epoch root) ∧
        ∀ x, (q.setEpochBlockRoot env epoch root).getEpochBlockRoot x =
          if (q.epochBlockRoots.insert epoch root).size > 10 ∧ x < q.epochPruneCutoff epoch then
            zeroHash
          else if epoch = x then root else q.getEpochBlockRoot x) := by
  by_cases hfix : q.finalizedRootFixed epoch root = true
  · exact .inl ⟨hfix, by rw [setEpochBlockRoot, if_pos hfix]⟩
  · have hroots (x : Epoch) : (q.setEpochBlockRoot env epoch root).getEpochBlockRoot x =
        if (q.epochBlockRoots.insert epoch root).size > 10 ∧ x < q.epochPruneCutoff epoch then
          zeroHash
        else if epoch = x then root else q.getEpochBlockRoot x := by
      unfold getEpochBlockRoot
      rw [getElem?_setEpochBlockRoot (by simpa using hfix)]
      split_ifs <;> rfl
    refine .inr ⟨by simpa using hfix, ?_⟩
    rw [← and_assoc]
    refine ⟨?_, hroots⟩
    unfold setEpochBlockRoot
    rw [if_neg hfix]
    dsimp only
    generalize hrec : (if (q.recordEpochRoot epoch root).finalityPersistPending = true then
      (q.recordEpochRoot epoch root).persistFinality env else q.recordEpochRoot epoch root) = q'
    have hsame : SameCheckpoint (q.recordEpochRoot epoch root) q' ∧
        Persists (q.recordEpochRoot epoch root) q' := by
      subst hrec
      split_ifs
      · exact persistFinality_checkpoint env _
      · exact ⟨.refl _, .inl rfl⟩
    obtain ⟨hsame, hper⟩ := hsame
    have hprune : (q'.pruneEpochRoots epoch).finality = q'.finality ∧
        (q'.pruneEpochRoots epoch).persisted = q'.persisted := by
      unfold pruneEpochRoots
      split_ifs <;> exact ⟨rfl, rfl⟩
    refine ⟨hprune.1.trans hsame.finality, ?_⟩
    unfold Persists at hper ⊢
    rw [hprune.1, hprune.2]
    exact hper

/-! ## Reorgs -/

theorem finalizedCheckpointSlot_of_pos (hpos : 0 < q.finalizedEpoch) :
    ∃ slot, q.finalizedCheckpointSlot = some slot := by
  have hfloor : q.finalityFloorSlot = some (q.finalizedEpoch * slotsPerEpoch) := by
    unfold finalityFloorSlot
    rw [if_neg fun h => UInt64.pos_iff_ne_zero.mp hpos h.1]
  unfold finalizedCheckpointSlot
  rw [hfloor]
  dsimp only
  split_ifs
  · exact ⟨_, rfl⟩
  · exact ⟨_, rfl⟩
  · exact ⟨_, rfl⟩

/-- What a reorg keeps: the checkpoints, their roots, the genesis root, and
the roots of the epochs that it does not reach. -/
theorem reanchorSlotRoots_checkpoint (q : QPOS) (roots vrfAccUpdates : Fmap Slot Hash)
    (bounds : ReanchorBounds) :
    (q.reanchorSlotRoots roots vrfAccUpdates bounds).2.finality = q.finality ∧
    (q.reanchorSlotRoots roots vrfAccUpdates bounds).2.persisted = q.persisted ∧
    (∀ x, x = 0 ∨ x = q.justifiedEpoch ∨ x = q.finalizedEpoch ∨
        (∀ range, reanchorCleanRange roots bounds = some range →
          ¬ firstReachedEpoch range.1 ≤ x) →
      (q.reanchorSlotRoots roots vrfAccUpdates bounds).2.getEpochBlockRoot x =
        q.getEpochBlockRoot x) := by
  refine ⟨finality_reanchor, ?_, fun x hx => ?_⟩
  · unfold reanchorSlotRoots
    split
    · rfl
    · split_ifs <;> rfl
  · cases hacc : (q.reanchorSlotRoots roots vrfAccUpdates bounds).1 with
    | false => rw [reanchorSlotRoots_eq_false hacc]
    | true =>
      rcases reanchorSlotRoots_eq_true hacc with ⟨-, heq⟩ | ⟨cleanMin, cleanMax, hr, hfin, heq⟩
      · rw [heq]
      · have hkept : q.anchored x = true ∨ ¬ firstReachedEpoch cleanMin ≤ x := by
          rcases hx with rfl | hx | hx | hx
          · by_cases hf : q.finalizedEpoch = 0
            · exact .inl (anchored_eq_true.mpr (.inr hf.symm))
            · obtain ⟨slot, hslot⟩ := finalizedCheckpointSlot_of_pos (UInt64.pos_iff_ne_zero.mpr hf)
              have hlt := UInt64.lt_iff_toNat_lt.mp (hfin slot hslot)
              refine .inr fun hle => ?_
              have := (firstReachedEpoch_le_iff cleanMin 0).mp hle
              have hb : boundarySlot 0 = 0 := rfl
              omega
          · exact .inl (anchored_eq_true.mpr (.inl hx))
          · exact .inl (anchored_eq_true.mpr (.inr hx))
          · exact .inr (hx _ hr)
        rw [heq]
        unfold getEpochBlockRoot
        dsimp only
        rw [getElem?_reanchoredEpochs_of_kept hkept]

/-! ## Restore -/

theorem check_eq_ok : st.check = .ok () ↔ st.finalizedEpoch ≤ st.justifiedEpoch ∧ st.Rooted := by
  unfold FinalityState.check
  constructor
  · intro h
    split_ifs at h with hle heq hj hf
    refine ⟨UInt64.not_lt.mp hle, fun hpos hz => hj ⟨hpos, hz⟩, fun hpos hz => hf ⟨hpos, hz⟩, ?_⟩
    intro hpos he
    by_contra hne
    exact heq ⟨he, hpos, hne⟩
  · rintro ⟨hle, hr⟩
    rw [if_neg (UInt64.not_lt.mpr hle), if_neg fun h => h.2.2 (hr.equal h.2.1 h.1),
      if_neg fun h => hr.justified h.1 h.2, if_neg fun h => hr.finalized h.1 h.2]

/-- The conditions under which a record is accepted against the local state. -/
structure Restorable (q : QPOS) (st : FinalityState) : Prop where
  justifiedLe : q.justifiedEpoch ≤ st.justifiedEpoch
  finalizedLe : q.finalizedEpoch ≤ st.finalizedEpoch
  justifiedRoot : 0 < q.justifiedEpoch → st.justifiedEpoch = q.justifiedEpoch →
    st.justifiedRoot = q.justifiedRoot
  finalizedRoot : 0 < q.finalizedEpoch → st.finalizedEpoch = q.finalizedEpoch →
    st.finalizedRoot = q.finalizedRoot
  justifiedGenesis : st.justifiedEpoch = 0 → st.justifiedRoot ≠ zeroHash →
    q.getEpochBlockRoot 0 = zeroHash ∨ q.getEpochBlockRoot 0 = st.justifiedRoot
  finalizedGenesis : st.finalizedEpoch = 0 → st.finalizedRoot ≠ zeroHash →
    q.getEpochBlockRoot 0 = zeroHash ∨ q.getEpochBlockRoot 0 = st.finalizedRoot
  genesisRoots : st.justifiedEpoch = 0 → st.finalizedEpoch = 0 → st.justifiedRoot ≠ zeroHash →
    st.finalizedRoot ≠ zeroHash → st.justifiedRoot = st.finalizedRoot

/-- The genesis root that an accepted record carries, or zero. -/
def genesisRootOf (epoch : Epoch) (root : Hash) : Hash := if epoch = 0 then root else zeroHash

theorem restoredGenesisRoot_eq_ok {r : Hash} :
    q.restoredGenesisRoot epoch root = .ok r ↔ r = genesisRootOf epoch root ∧
      (epoch = 0 → root ≠ zeroHash →
        q.getEpochBlockRoot 0 = zeroHash ∨ q.getEpochBlockRoot 0 = root) := by
  unfold restoredGenesisRoot genesisRootOf
  by_cases he : epoch = 0
  · by_cases hr : root = zeroHash
    · simp [he, hr, eq_comm]
    · rw [if_neg (by simp [he, hr]), if_pos he]
      by_cases hc : q.getEpochBlockRoot 0 ≠ zeroHash ∧ q.getEpochBlockRoot 0 ≠ root
      · rw [if_pos hc]
        refine ⟨fun h => (by cases h), fun h => ?_⟩
        exact absurd (h.2 he hr) (by tauto)
      · rw [if_neg hc]
        have hor : q.getEpochBlockRoot 0 = zeroHash ∨ q.getEpochBlockRoot 0 = root := by tauto
        exact ⟨fun h => ⟨(Except.ok.inj h).symm, fun _ _ => hor⟩, fun h => by rw [h.1]⟩
  · rw [if_pos (.inl he), if_neg he]
    exact ⟨fun h => ⟨(Except.ok.inj h).symm, fun h0 => absurd h0 he⟩, fun h => by rw [h.1]⟩

theorem checkRestore_eq_ok {roots : Hash × Hash} : q.checkRestore st = .ok roots ↔ Restorable q st ∧
      roots = (genesisRootOf st.justifiedEpoch st.justifiedRoot,
        genesisRootOf st.finalizedEpoch st.finalizedRoot) := by
  unfold checkRestore
  constructor
  · intro h
    split at h
    · cases h
    next hold =>
    split at h
    · cases h
    next hj =>
    split at h
    · cases h
    next hf =>
    split at h
    · cases h
    next rj hrj =>
    split at h
    · cases h
    next rf hrf =>
    split at h
    · cases h
    next hz =>
    obtain ⟨rfl, hgj⟩ := restoredGenesisRoot_eq_ok.mp hrj
    obtain ⟨rfl, hgf⟩ := restoredGenesisRoot_eq_ok.mp hrf
    rw [not_or, UInt64.not_lt, UInt64.not_lt] at hold
    refine ⟨⟨hold.1, hold.2, ?_, ?_, hgj, hgf, ?_⟩, (Except.ok.inj h).symm⟩
    · intro hpos heq
      by_contra hne
      exact hj ⟨hpos, heq, hne⟩
    · intro hpos heq
      by_contra hne
      exact hf ⟨hpos, heq, hne⟩
    · intro h1 h2 h3 h4
      by_contra hne
      exact hz ⟨h1, h2, h3, h4, hne⟩
  · rintro ⟨h, rfl⟩
    rw [if_neg, if_neg, if_neg, restoredGenesisRoot_eq_ok.mpr ⟨rfl, h.justifiedGenesis⟩]
    · dsimp only
      rw [restoredGenesisRoot_eq_ok.mpr ⟨rfl, h.finalizedGenesis⟩]
      dsimp only
      rw [if_neg]
      exact fun hz => hz.2.2.2.2 (h.genesisRoots hz.1 hz.2.1 hz.2.2.1 hz.2.2.2.1)
    · exact fun hf => hf.2.2 (h.finalizedRoot hf.1 hf.2.1)
    · exact fun hj => hj.2.2 (h.justifiedRoot hj.1 hj.2.1)
    · rw [not_or, UInt64.not_lt, UInt64.not_lt]
      exact ⟨h.justifiedLe, h.finalizedLe⟩

theorem getD_insert_if (c : Prop) [Decidable c] (roots : Fmap Epoch Hash) (e x : Epoch)
    (root : Hash) : ((if c then roots.insert e root else roots)[x]?).getD zeroHash =
      if c ∧ e = x then root else (roots[x]?).getD zeroHash := by
  by_cases hc : c
  · rw [if_pos hc, Fmap.getElem?_insert]
    by_cases hx : e = x
    · rw [if_pos hx, if_pos ⟨hc, hx⟩, Option.getD_some]
    · rw [if_neg hx, if_neg fun h => hx h.2]
  · rw [if_neg hc, if_neg fun h => hc h.1]

theorem registerRestoredCheckpointRoots_spec (q : QPOS) (hr : q.finality.Rooted) :
    q.registerRestoredCheckpointRoots.finality = q.finality ∧
    q.registerRestoredCheckpointRoots.persisted = q.persisted ∧
    q.registerRestoredCheckpointRoots.getEpochBlockRoot 0 = q.getEpochBlockRoot 0 ∧
    ∀ x, 0 < x → q.registerRestoredCheckpointRoots.getEpochBlockRoot x =
      if q.finalizedEpoch = x then q.finalizedRoot
      else if q.justifiedEpoch = x then q.justifiedRoot else q.getEpochBlockRoot x := by
  have hj : (q.justifiedEpoch > 0 ∧ q.justifiedRoot ≠ zeroHash) ↔ 0 < q.justifiedEpoch :=
    ⟨fun h => h.1, fun h => ⟨h, hr.justified h⟩⟩
  have hf : (q.finalizedEpoch > 0 ∧ q.finalizedRoot ≠ zeroHash) ↔ 0 < q.finalizedEpoch :=
    ⟨fun h => h.1, fun h => ⟨h, hr.finalized h⟩⟩
  unfold registerRestoredCheckpointRoots
  simp only [hj, hf]
  generalize hroots : (if 0 < q.finalizedEpoch then
      (if 0 < q.justifiedEpoch then q.epochBlockRoots.insert q.justifiedEpoch q.justifiedRoot
        else q.epochBlockRoots).insert q.finalizedEpoch q.finalizedRoot
    else if 0 < q.justifiedEpoch then q.epochBlockRoots.insert q.justifiedEpoch q.justifiedRoot
    else q.epochBlockRoots) = roots
  have hget : ∀ x, (roots[x]?).getD zeroHash =
      if 0 < q.finalizedEpoch ∧ q.finalizedEpoch = x then q.finalizedRoot
      else if 0 < q.justifiedEpoch ∧ q.justifiedEpoch = x then q.justifiedRoot
      else q.getEpochBlockRoot x := by
    intro x
    subst hroots
    rw [getD_insert_if, getD_insert_if]
    rfl
  have hzero : (roots[(0 : Epoch)]?).getD zeroHash = q.getEpochBlockRoot 0 := by
    rw [hget, if_neg fun h => UInt64.pos_iff_ne_zero.mp h.1 h.2,
      if_neg fun h => UInt64.pos_iff_ne_zero.mp h.1 h.2]
  have hpos : ∀ x, 0 < x → (roots[x]?).getD zeroHash =
      if q.finalizedEpoch = x then q.finalizedRoot
      else if q.justifiedEpoch = x then q.justifiedRoot else q.getEpochBlockRoot x := by
    intro x hx
    have h1 : (0 < q.finalizedEpoch ∧ q.finalizedEpoch = x) ↔ q.finalizedEpoch = x :=
      ⟨fun h => h.2, fun h => ⟨h ▸ hx, h⟩⟩
    have h2 : (0 < q.justifiedEpoch ∧ q.justifiedEpoch = x) ↔ q.justifiedEpoch = x :=
      ⟨fun h => h.2, fun h => ⟨h ▸ hx, h⟩⟩
    rw [hget]
    simp only [h1, h2]
  split_ifs
  · exact ⟨rfl, rfl, hzero, hpos⟩
  · exact ⟨rfl, rfl, hzero, hpos⟩

theorem getEpochBlockRoot_registerGenesis (q : QPOS) (root : Hash) (x : Epoch) :
    (q.registerGenesis root).getEpochBlockRoot x = if 0 = x then root else q.getEpochBlockRoot x := by
  unfold registerGenesis getEpochBlockRoot
  dsimp only
  rw [Fmap.getElem?_insert]
  split_ifs <;> rfl

/-- What an accepted restore leaves. -/
structure Restored (q : QPOS) (st : FinalityState) (q' : QPOS) : Prop where
  finality : q'.finality = st
  persisted : q'.persisted = q.persisted
  genesis : q'.getEpochBlockRoot 0 = q.getEpochBlockRoot 0 ∨
    (st.justifiedEpoch = 0 ∧ st.justifiedRoot ≠ zeroHash ∧
      q'.getEpochBlockRoot 0 = st.justifiedRoot) ∨
    (st.finalizedEpoch = 0 ∧ st.finalizedRoot ≠ zeroHash ∧
      q'.getEpochBlockRoot 0 = st.finalizedRoot)
  roots : ∀ x, 0 < x → q'.getEpochBlockRoot x =
    if st.finalizedEpoch = x then st.finalizedRoot
    else if st.justifiedEpoch = x then st.justifiedRoot else q.getEpochBlockRoot x

theorem genesisRootOf_ne (h : genesisRootOf epoch root ≠ zeroHash) :
    epoch = 0 ∧ genesisRootOf epoch root = root := by
  unfold genesisRootOf at h ⊢
  split_ifs at h ⊢ with he
  · exact ⟨he, rfl⟩
  · exact absurd rfl h

/-- The checks accept exactly the restorable records, and then the state is
the restored one. -/
theorem restoreFinalityState_spec (q : QPOS) (st : FinalityState) :
    (∃ q', q.restoreFinalityState st = .ok q' ∧ Restored q st q' ∧
      st.finalizedEpoch ≤ st.justifiedEpoch ∧ st.Rooted ∧ Restorable q st) ∨
    ((∃ err, q.restoreFinalityState st = .error err) ∧
      ¬ (st.finalizedEpoch ≤ st.justifiedEpoch ∧ st.Rooted ∧ Restorable q st)) := by
  unfold restoreFinalityState
  cases hc : st.check with
  | error err =>
    refine .inr ⟨⟨err, rfl⟩, fun h => ?_⟩
    rw [check_eq_ok.mpr ⟨h.1, h.2.1⟩] at hc
    cases hc
  | ok u =>
    obtain ⟨hle, hrooted⟩ := check_eq_ok.mp hc
    dsimp only
    cases hr : q.checkRestore st with
    | error err =>
      refine .inr ⟨⟨err, rfl⟩, fun h => ?_⟩
      rw [checkRestore_eq_ok.mpr ⟨h.2.2, rfl⟩] at hr
      cases hr
    | ok roots =>
      obtain ⟨hres, rfl⟩ := checkRestore_eq_ok.mp hr
      refine .inl ⟨_, rfl, ?_, hle, hrooted, hres⟩
      have hspec := registerRestoredCheckpointRoots_spec
        { q with
          justifiedEpoch := st.justifiedEpoch
          justifiedRoot := st.justifiedRoot
          finalizedEpoch := st.finalizedEpoch
          finalizedRoot := st.finalizedRoot } hrooted
      generalize registerRestoredCheckpointRoots _ = q' at hspec ⊢
      obtain ⟨hfin, hper, hzero, hpos⟩ := hspec
      by_cases hgj : genesisRootOf st.justifiedEpoch st.justifiedRoot = zeroHash
      · rw [if_neg (not_not.mpr hgj)]
        split_ifs with hgf
        · obtain ⟨he, hroot⟩ := genesisRootOf_ne hgf.1
          refine ⟨hfin, hper, .inr (.inr ⟨he, hroot ▸ hgf.1, ?_⟩), fun x hx => ?_⟩
          · rw [getEpochBlockRoot_registerGenesis, if_pos rfl, hroot]
          · rw [getEpochBlockRoot_registerGenesis, if_neg (UInt64.ne_of_lt hx)]
            exact hpos x hx
        · exact ⟨hfin, hper, .inl hzero, hpos⟩
      · obtain ⟨he, hroot⟩ := genesisRootOf_ne hgj
        rw [if_pos hgj]
        have hset : (q'.registerGenesis
            (genesisRootOf st.justifiedEpoch st.justifiedRoot)).getEpochBlockRoot 0 =
            st.justifiedRoot := by
          rw [getEpochBlockRoot_registerGenesis, if_pos rfl, hroot]
        rw [hset, if_neg fun h => hgj (hroot.trans h.2)]
        refine ⟨hfin, hper, .inr (.inl ⟨he, hroot ▸ hgj, hset⟩), fun x hx => ?_⟩
        rw [getEpochBlockRoot_registerGenesis, if_neg (UInt64.ne_of_lt hx)]
        exact hpos x hx

end QPOS

/-! ## One call -/

/-- What a call can do to the checkpoints. -/
inductive CheckpointStep (q : QPOS) (c : Call) (q' : QPOS) : Prop where
  | same (kept : SameCheckpoint q q') (persists : Persists q q')
  | tally {att : Attestation} (op : c.op = .processAttestation att)
      (advances : QPOS.Advances q q')
  | adopt {j f headerEpoch : Epoch} {hash : Hash}
      (op : c.op = .adoptHeaderFinality j f headerEpoch hash)
      (valid : headerFinalityCheckpointsValid j f headerEpoch = true)
      (eq : q' = q.adoptHeaderFinality c.env j f hash)
  | record {epoch : Epoch} {root : Hash}
      (op : c.op = .setEpochBlockRoot epoch root ∨
        c.op = .ensureEpochBlockRoot epoch root ∧ q.epochBlockRoots[epoch]? = none)
      (eq : q' = q.setEpochBlockRoot c.env epoch root)
  | reorg {roots vrfAccUpdates : Fmap Slot Hash} {bounds : ReanchorBounds}
      (op : c.op = .reanchorSlotRoots roots vrfAccUpdates bounds)
      (eq : q' = (q.reanchorSlotRoots roots vrfAccUpdates bounds).2)
  | restore {st : FinalityState} (op : c.op = .restoreFinalityState st)
      (restored : QPOS.Restored q st q') (le : st.finalizedEpoch ≤ st.justifiedEpoch)
      (rooted : st.Rooted) (restorable : QPOS.Restorable q st)

theorem checkpointStep_processAttestation (sch : SignatureScheme) (q : QPOS)
    (hop : c.op = .processAttestation att) :
    CheckpointStep q c (q.processAttestation sch c.env att).2 := by
  have hprom : ∀ v, SameCheckpoint q (q.promoteFor v att) ∧
      (q.promoteFor v att).persisted = q.persisted := by
    intro v
    obtain ⟨reg, h⟩ := promoteFor_eq q v att
    rw [h]
    exact ⟨⟨rfl, rfl⟩, rfl⟩
  rcases processAttestation_cases sch c.env q att with
    ⟨err, -, heq | ⟨v, heq⟩⟩ | ⟨v, existing, ev, err, -, -, heq⟩ | ⟨v, -, -, -, heq⟩ | ⟨v, -, -, heq⟩
  · rw [heq]
    exact .same (.refl q) (.inl rfl)
  · rw [heq]
    exact .same (hprom v).1 (.inl (hprom v).2)
  · obtain ⟨queue, submitted, h⟩ := reportEvidence_eq (q.promoteFor v att) ev
    rw [heq]
    rw [h]
    exact .same ⟨(hprom v).1.finality, (hprom v).1.epochBlockRoots⟩ (.inl (hprom v).2)
  · rw [heq]
    exact .same (hprom v).1 (.inl (hprom v).2)
  · obtain ⟨reg, h⟩ := promoteFor_eq q v att
    have hadv := advances_tryUpdateFinality c.env ((q.promoteFor v att).store att)
    rw [heq]
    rw [h] at hadv ⊢
    exact .tally hop ⟨hadv.epochBlockRoots, hadv.persists, hadv.justified, hadv.finalized⟩

theorem checkpointStep (sch : SignatureScheme) (q : QPOS) (c : Call) :
    CheckpointStep q c (step sch q c) := by
  obtain ⟨env, op⟩ := c
  cases op with
  | processAttestation att => exact checkpointStep_processAttestation sch q rfl
  | createAttestation slot root idx =>
    simp only [step, createAttestation]
    split
    · exact .same (.refl q) (.inl rfl)
    · split_ifs <;> exact .same ⟨rfl, rfl⟩ (.inl rfl)
  | adoptHeaderFinality j f headerEpoch hash =>
    simp only [step]
    split_ifs with hv
    · exact .adopt rfl hv rfl
    · exact .same (.refl q) (.inl rfl)
  | setEpochBlockRoot epoch root => exact .record (.inl rfl) rfl
  | ensureEpochBlockRoot epoch root =>
    simp only [step, ensureEpochBlockRoot]
    split_ifs with hsome
    · exact .same (.refl q) (.inl rfl)
    · exact .record (.inr ⟨rfl, by simpa using hsome⟩) rfl
  | setSlotBlockRoot slot root =>
    simp only [step, setSlotBlockRoot]
    split_ifs <;> exact .same ⟨rfl, rfl⟩ (.inl rfl)
  | reanchorSlotRoots roots vrf bounds => exact .reorg rfl rfl
  | restoreFinalityState st =>
    simp only [step]
    rcases restoreFinalityState_spec q st with ⟨q', heq, hres, hle, hroot, hok⟩ | ⟨⟨err, heq⟩, -⟩
    · rw [heq]
      exact .restore rfl hres hle hroot hok
    · rw [heq]
      exact .same (.refl q) (.inl rfl)
  | setFinalityPersistCallback =>
    simp only [step, setFinalityPersistCallback]
    split_ifs
    · obtain ⟨hsame, hper⟩ := persistFinality_checkpoint env
        { q with finalityPersist := true, finalityPersistPending := true }
      exact .same ⟨hsame.finality, hsame.epochBlockRoots⟩ hper
    · obtain ⟨hsame, hper⟩ := persistFinality_checkpoint env
        { q with finalityPersist := true }
      exact .same ⟨hsame.finality, hsame.epochBlockRoots⟩ hper
  | pruneOldAttestations | outside => exact .same ⟨rfl, rfl⟩ (.inl rfl)
  | setLastKnownBlockTime t =>
    simp only [step, setLastKnownBlockTime]
    split_ifs <;> exact .same ⟨rfl, rfl⟩ (.inl rfl)

theorem CheckpointStep.mono (h : CheckpointStep q c q') :
    q.justifiedEpoch ≤ q'.justifiedEpoch ∧ q.finalizedEpoch ≤ q'.finalizedEpoch := by
  cases h with
  | same kept _ =>
    exact ⟨UInt64.le_of_eq kept.justifiedEpoch.symm, UInt64.le_of_eq kept.finalizedEpoch.symm⟩
  | tally _ hadv =>
    constructor
    · rcases hadv.justified with ⟨h, -⟩ | h
      · exact UInt64.le_of_eq h.symm
      · exact UInt64.le_of_lt h
    · rcases hadv.finalized with ⟨h, -⟩ | ⟨h, -⟩ | ⟨h, -⟩
      · exact UInt64.le_of_eq h.symm
      · exact UInt64.le_of_eq h.symm
      · exact UInt64.le_of_lt h
  | @adopt j f _ hash _ _ heq =>
    obtain ⟨-, -, hj, hf⟩ := adoptHeaderFinality_spec heq
    constructor
    · split_ifs at hj with hlt
      · rw [hj]
        exact UInt64.le_of_lt hlt
      · exact UInt64.le_of_eq hj.1.symm
    · split_ifs at hf with hlt
      · rw [hf.1]
        exact UInt64.le_of_lt hlt
      · exact UInt64.le_of_eq hf.1.symm
  | @record epoch root _ heq =>
    subst heq
    rcases setEpochBlockRoot_spec c.env q epoch root with ⟨-, h⟩ | ⟨-, h, -, -⟩
    · rw [h]
      exact ⟨UInt64.le_refl _, UInt64.le_refl _⟩
    · obtain ⟨hj, hf, -⟩ := fields_of_finality h
      exact ⟨UInt64.le_of_eq hj.symm, UInt64.le_of_eq hf.symm⟩
  | reorg _ heq =>
    subst heq
    obtain ⟨hj, hf, -⟩ := fields_of_finality finality_reanchor
    exact ⟨UInt64.le_of_eq hj.symm, UInt64.le_of_eq hf.symm⟩
  | restore _ restored _ _ restorable =>
    obtain ⟨hj, hf, -⟩ := fields_of_finality restored.finality
    exact ⟨UInt64.le_trans restorable.justifiedLe (UInt64.le_of_eq hj.symm),
      UInt64.le_trans restorable.finalizedLe (UInt64.le_of_eq hf.symm)⟩

end Qau.Consensus
