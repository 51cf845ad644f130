import Qau.QposCheckpoint

/-!
# The finality state over whole runs

A node starts from the genesis root and takes calls in any order. In the
runs whose calls are `Careful` the finalized checkpoint never overtakes the
justified one, the root of the latest finalized epoch is fixed, and what the
durable store holds can be restored. The code also lets careless calls
through: a header may carry a finalized epoch above its justified one, pruning
may drop the root of the finalized epoch while that is epoch 0 or 1, a root
taken from a header may be replaced, and a restore may bring another genesis
root. The checkpoints move only forward in every run, careful or not.
-/

namespace Qau.Consensus

variable {root : Hash} {st : FinalityState}

/-- A node with the genesis root, before anything else. -/
def startQPOS (validators : List Validator) (cutover : Epoch) (genesis : Hash) : QPOS :=
  (newQPOS validators cutover).setGenesisRoot genesis

/-- Zero or the genesis root: what may stand for epoch 0. -/
def GenesisOrZero (genesis root : Hash) : Prop := root = zeroHash ∨ root = genesis

/-- The recording of an epoch root that agrees with genesis and with the
finalized root, and does not prune the finalized epoch. -/
structure CarefulRecord (genesis : Hash) (q : QPOS) (epoch : Epoch) (root : Hash) : Prop where
  epochZero : epoch = 0 → root = genesis
  finalized : epoch = q.finalizedEpoch → q.finalizedRoot ≠ zeroHash →
    q.getEpochBlockRoot epoch = zeroHash → root = q.finalizedRoot
  kept : q.finalizedRoot ≠ zeroHash → q.finalizedEpoch < q.epochPruneCutoff epoch →
    (q.epochBlockRoots.insert epoch root).size ≤ 10

/-- A record to restore that agrees with genesis and the finalized root. -/
structure CarefulRestore (genesis : Hash) (q : QPOS) (st : FinalityState) : Prop where
  justified : st.justifiedEpoch = 0 → GenesisOrZero genesis st.justifiedRoot
  finalized : st.finalizedEpoch = 0 → GenesisOrZero genesis st.finalizedRoot
  root : st.finalizedEpoch = q.finalizedEpoch → q.finalizedRoot ≠ zeroHash →
    st.finalizedRoot = q.finalizedRoot

/-- The calls that keep the finality state sound. -/
def Careful (genesis : Hash) (q : QPOS) (c : Call) : Prop :=
  match c.op with
  | .adoptHeaderFinality j f _ _ => f ≤ q.finalizedEpoch ∨ f ≤ q.justifiedEpoch ∨ f ≤ j
  | .setEpochBlockRoot epoch root | .ensureEpochBlockRoot epoch root =>
    CarefulRecord genesis q epoch root
  | .restoreFinalityState st => CarefulRestore genesis q st
  | _ => True

/-- A record that a fresh node with the same genesis root accepts. -/
structure Recoverable (genesis : Hash) (st : FinalityState) : Prop where
  le : st.finalizedEpoch ≤ st.justifiedEpoch
  rooted : st.Rooted
  justified : st.justifiedEpoch = 0 → GenesisOrZero genesis st.justifiedRoot
  finalized : st.finalizedEpoch = 0 → GenesisOrZero genesis st.finalizedRoot

/-- The invariant of careful runs. -/
structure Sound (genesis : Hash) (q : QPOS) : Prop where
  le : q.finalizedEpoch ≤ q.justifiedEpoch
  root : q.finalizedRoot ≠ zeroHash → q.getEpochBlockRoot q.finalizedEpoch ≠ zeroHash →
    q.getEpochBlockRoot q.finalizedEpoch = q.finalizedRoot
  epochZero : GenesisOrZero genesis (q.getEpochBlockRoot 0)
  justified : q.justifiedEpoch = 0 → GenesisOrZero genesis q.justifiedRoot
  finalized : q.finalizedEpoch = 0 → GenesisOrZero genesis q.finalizedRoot
  durable : ∀ st, q.persisted = some st → Recoverable genesis st

/-- The latest finalized root and the recorded root of its epoch stay. -/
def KeepsFinalized (q q' : QPOS) : Prop :=
  q'.finalizedEpoch = q.finalizedEpoch → q.finalizedRoot ≠ zeroHash →
    q'.finalizedRoot = q.finalizedRoot ∧
      (q.getEpochBlockRoot q.finalizedEpoch ≠ zeroHash →
        q'.getEpochBlockRoot q.finalizedEpoch = q.getEpochBlockRoot q.finalizedEpoch)

section Step

variable {genesis : Hash} {q q' : QPOS} {c : Call}

section
variable (hq : Sound genesis q)
include hq

theorem durable_of_persists (hper : Persists q q') (hle : q'.finalizedEpoch ≤ q'.justifiedEpoch)
    (hj : q'.justifiedEpoch = 0 → GenesisOrZero genesis q'.justifiedRoot)
    (hf : q'.finalizedEpoch = 0 → GenesisOrZero genesis q'.finalizedRoot) :
    ∀ st, q'.persisted = some st → Recoverable genesis st := by
  intro st hst
  rcases hper with hold | ⟨hnew, hrooted⟩
  · exact hq.durable st (hold ▸ hst)
  · rw [hnew] at hst
    cases hst
    exact ⟨hle, hrooted, hj, hf⟩

/-- The checkpoint is the same, and so are the roots of its epoch and of
epoch 0. -/
theorem sound_kept (hfin : q'.finality = q.finality)
    (hroot : q'.getEpochBlockRoot q.finalizedEpoch = q.getEpochBlockRoot q.finalizedEpoch)
    (hzero : q'.getEpochBlockRoot 0 = q.getEpochBlockRoot 0) (hper : Persists q q') :
    Sound genesis q' ∧ KeepsFinalized q q' := by
  obtain ⟨hje, hfe, hjr, hfr⟩ := QPOS.fields_of_finality hfin
  have hle : q'.finalizedEpoch ≤ q'.justifiedEpoch := by
    rw [hje, hfe]
    exact hq.le
  have hj : q'.justifiedEpoch = 0 → GenesisOrZero genesis q'.justifiedRoot := by
    rw [hje, hjr]
    exact hq.justified
  have hf : q'.finalizedEpoch = 0 → GenesisOrZero genesis q'.finalizedRoot := by
    rw [hfe, hfr]
    exact hq.finalized
  refine ⟨⟨hle, ?_, hzero ▸ hq.epochZero, hj, hf, durable_of_persists hq hper hle hj hf⟩,
    fun _ _ => ⟨hfr, fun _ => hroot⟩⟩
  rw [hfe, hfr]
  exact hroot.symm ▸ hq.root

theorem sound_tally (hadv : QPOS.Advances q q') : Sound genesis q' ∧ KeepsFinalized q q' := by
  have hroot := QPOS.roots_of_eq hadv.epochBlockRoots
  have hjle : q.justifiedEpoch ≤ q'.justifiedEpoch := by
    rcases hadv.justified with ⟨h, -⟩ | h
    · exact UInt64.le_of_eq h.symm
    · exact UInt64.le_of_lt h
  have hle : q'.finalizedEpoch ≤ q'.justifiedEpoch := by
    rcases hadv.finalized with ⟨h, -⟩ | ⟨h, -⟩ | ⟨-, h, hlt, -⟩
    · rw [h]
      exact UInt64.le_trans hq.le hjle
    · rw [h]
      exact UInt64.le_trans hq.le hjle
    · rw [h]
      exact UInt64.le_of_lt hlt
  have hj : q'.justifiedEpoch = 0 → GenesisOrZero genesis q'.justifiedRoot := by
    intro h0
    rcases hadv.justified with ⟨h, hr⟩ | h
    · rw [hr]
      exact hq.justified (h ▸ h0)
    · rw [h0] at h
      exact absurd h UInt64.not_lt_zero
  have hf : q'.finalizedEpoch = 0 → GenesisOrZero genesis q'.finalizedRoot := by
    intro h0
    rcases hadv.finalized with ⟨h, hr⟩ | ⟨h, -, hr⟩ | ⟨h, -⟩
    · rw [hr]
      exact hq.finalized (h ▸ h0)
    · rw [hr, ← h, h0]
      exact hq.epochZero
    · rw [h0] at h
      exact absurd h UInt64.not_lt_zero
  refine ⟨⟨hle, ?_, hroot 0 ▸ hq.epochZero, hj, hf,
    durable_of_persists hq hadv.persists hle hj hf⟩, fun hsame hne => ⟨?_, fun _ => hroot _⟩⟩
  · intro hne hrec
    rw [hroot] at hrec ⊢
    rcases hadv.finalized with ⟨h, hr⟩ | ⟨h, -, hr⟩ | ⟨-, -, -, hr⟩
    · rw [h] at hrec ⊢
      rw [hr] at hne ⊢
      exact hq.root hne hrec
    · rw [h, hr]
    · exact hr.symm
  · rcases hadv.finalized with ⟨-, hr⟩ | ⟨-, hz, -⟩ | ⟨hlt, -⟩
    · exact hr
    · exact absurd hz hne
    · exact absurd hsame.symm (UInt64.ne_of_lt hlt)

theorem sound_adopt {j f : Epoch} {hash : Hash}
    (hok : f ≤ q.finalizedEpoch ∨ f ≤ q.justifiedEpoch ∨ f ≤ j) (env : Env) :
    Sound genesis (q.adoptHeaderFinality env j f hash) ∧
      KeepsFinalized q (q.adoptHeaderFinality env j f hash) := by
  generalize hq' : q.adoptHeaderFinality env j f hash = q'
  obtain ⟨hroots, hper, hjust, hfin⟩ := QPOS.adoptHeaderFinality_spec hq'.symm
  have hroot := QPOS.roots_of_eq hroots
  have hjle : q.justifiedEpoch ≤ q'.justifiedEpoch ∧ j ≤ q'.justifiedEpoch := by
    split_ifs at hjust with hlt
    · rw [hjust]
      exact ⟨UInt64.le_of_lt hlt, UInt64.le_refl _⟩
    · rw [hjust.1]
      exact ⟨UInt64.le_refl _, UInt64.not_lt.mp hlt⟩
  have hle : q'.finalizedEpoch ≤ q'.justifiedEpoch := by
    split_ifs at hfin with hlt
    · rw [hfin.1]
      rcases hok with hok | hok | hok
      · exact absurd hlt (UInt64.not_lt.mpr hok)
      · exact UInt64.le_trans hok hjle.1
      · exact UInt64.le_trans hok hjle.2
    · rw [hfin.1]
      exact UInt64.le_trans hq.le hjle.1
  have hj : q'.justifiedEpoch = 0 → GenesisOrZero genesis q'.justifiedRoot := by
    intro h0
    split_ifs at hjust with hlt
    · rw [← hjust, h0] at hlt
      exact absurd hlt UInt64.not_lt_zero
    · rw [hjust.2]
      exact hq.justified (hjust.1 ▸ h0)
  have hf : q'.finalizedEpoch = 0 → GenesisOrZero genesis q'.finalizedRoot := by
    intro h0
    split_ifs at hfin with hlt
    · rw [← hfin.1, h0] at hlt
      exact absurd hlt UInt64.not_lt_zero
    · rw [hfin.2]
      exact hq.finalized (hfin.1 ▸ h0)
  refine ⟨⟨hle, ?_, hroot 0 ▸ hq.epochZero, hj, hf, durable_of_persists hq hper hle hj hf⟩,
    fun hsame _ => ⟨?_, fun _ => hroot _⟩⟩
  · intro hne hrec
    rw [hroot] at hrec ⊢
    split_ifs at hfin with hlt
    · rw [hfin.1] at hrec ⊢
      rw [hfin.2, adoptCheckpointRoot, if_pos hrec]
    · rw [hfin.1] at hrec ⊢
      rw [hfin.2] at hne ⊢
      exact hq.root hne hrec
  · split_ifs at hfin with hlt
    · rw [← hfin.1, hsame] at hlt
      exact absurd rfl (UInt64.ne_of_lt hlt)
    · exact hfin.2

/-- A careful recording for the finalized epoch brings the finalized root. -/
theorem root_eq_of_record (hok : CarefulRecord genesis q q.finalizedEpoch root)
    (hfree : q.finalizedRootFixed q.finalizedEpoch root = false) (hne : q.finalizedRoot ≠ zeroHash)
    : root = q.finalizedRoot := by
  by_cases hrec : q.getEpochBlockRoot q.finalizedEpoch = zeroHash
  · exact hok.finalized rfl hne hrec
  · by_cases h0 : q.finalizedEpoch = 0
    · -- epoch 0 is not guarded by the code, only its root is known
      rw [hok.epochZero h0]
      exact ((hq.finalized h0).resolve_left hne).symm
    · rw [← hq.root hne hrec]
      by_contra hdiff
      have hpos := UInt64.pos_iff_ne_zero.mpr h0
      have hdiff : q.getEpochBlockRoot q.finalizedEpoch ≠ root := fun h => hdiff h.symm
      simp [QPOS.finalizedRootFixed, hpos, hrec, hdiff] at hfree

theorem sound_record {epoch : Epoch} (hok : CarefulRecord genesis q epoch root) (env : Env) :
    Sound genesis (q.setEpochBlockRoot env epoch root) ∧
      KeepsFinalized q (q.setEpochBlockRoot env epoch root) := by
  rcases QPOS.setEpochBlockRoot_spec env q epoch root with ⟨-, heq⟩ | ⟨hfree, hfin, hper, hroots⟩
  · rw [heq]
    exact ⟨hq, fun _ _ => ⟨rfl, fun _ => rfl⟩⟩
  · generalize q.setEpochBlockRoot env epoch root = q' at hfin hper hroots ⊢
    obtain ⟨hje, hfe, hjr, hfr⟩ : q'.justifiedEpoch = q.justifiedEpoch ∧
        q'.finalizedEpoch = q.finalizedEpoch ∧
        q'.justifiedRoot = (if q.justifiedEpoch = epoch then root else q.justifiedRoot) ∧
        q'.finalizedRoot = if q.finalizedEpoch = epoch then root else q.finalizedRoot :=
      QPOS.fields_of_finality hfin
    have hle : q'.finalizedEpoch ≤ q'.justifiedEpoch := by
      rw [hje, hfe]
      exact hq.le
    have hj : q'.justifiedEpoch = 0 → GenesisOrZero genesis q'.justifiedRoot := by
      rw [hje, hjr]
      intro h0
      split_ifs with he
      · exact .inr (hok.epochZero (he ▸ h0))
      · exact hq.justified h0
    have hf : q'.finalizedEpoch = 0 → GenesisOrZero genesis q'.finalizedRoot := by
      rw [hfe, hfr]
      intro h0
      split_ifs with he
      · exact .inr (hok.epochZero (he ▸ h0))
      · exact hq.finalized h0
    refine ⟨⟨hle, ?_, ?_, hj, hf, durable_of_persists hq hper hle hj hf⟩, fun _ hne => ?_⟩
    · rw [hfe, hfr, hroots]
      intro hne hrec
      have hpr : ¬ ((q.epochBlockRoots.insert epoch root).size > 10 ∧
          q.finalizedEpoch < q.epochPruneCutoff epoch) := fun h => hrec (if_pos h)
      rw [if_neg hpr] at hrec ⊢
      by_cases he : q.finalizedEpoch = epoch
      · rw [if_pos he.symm, if_pos he]
      · rw [if_neg he] at hne ⊢
        rw [if_neg (Ne.symm he)] at hrec ⊢
        exact hq.root hne hrec
    · rw [hroots]
      split_ifs with hpr he
      · exact .inl rfl
      · exact .inr (hok.epochZero he)
      · exact hq.epochZero
    · have hpr : ¬ ((q.epochBlockRoots.insert epoch root).size > 10 ∧
          q.finalizedEpoch < q.epochPruneCutoff epoch) := fun h =>
        absurd h.1 (Nat.not_lt.mpr (hok.kept hne h.2))
      rw [hfr, hroots, if_neg hpr]
      by_cases he : q.finalizedEpoch = epoch
      · subst he
        have hroot := root_eq_of_record hq hok hfree hne
        rw [if_pos rfl, if_pos rfl]
        exact ⟨hroot, fun hrec => hroot.trans (hq.root hne hrec).symm⟩
      · rw [if_neg he, if_neg fun h => he h.symm]
        exact ⟨rfl, fun _ => rfl⟩

theorem sound_reorg (roots vrfAccUpdates : Fmap Slot Hash) (bounds : ReanchorBounds) :
    Sound genesis (q.reanchorSlotRoots roots vrfAccUpdates bounds).2 ∧
      KeepsFinalized q (q.reanchorSlotRoots roots vrfAccUpdates bounds).2 := by
  obtain ⟨hfin, hper, hroots⟩ :=
    QPOS.reanchorSlotRoots_checkpoint q roots vrfAccUpdates bounds
  exact sound_kept hq hfin (hroots _ (.inr (.inr (.inl rfl)))) (hroots 0 (.inl rfl)) (.inl hper)

theorem sound_restore (hok : CarefulRestore genesis q st) (hres : QPOS.Restored q st q')
    (hle : st.finalizedEpoch ≤ st.justifiedEpoch) : Sound genesis q' ∧ KeepsFinalized q q' := by
  obtain ⟨hje, hfe, hjr, hfr⟩ := QPOS.fields_of_finality hres.finality
  have hzero : GenesisOrZero genesis (q'.getEpochBlockRoot 0) := by
    rcases hres.genesis with h | ⟨h0, -, h⟩ | ⟨h0, -, h⟩
    · rw [h]
      exact hq.epochZero
    · rw [h]
      exact hok.justified h0
    · rw [h]
      exact hok.finalized h0
  refine ⟨⟨?_, ?_, hzero, ?_, ?_, ?_⟩, fun hsame hne => ?_⟩
  · rw [hje, hfe]
    exact hle
  · rw [hfe, hfr]
    intro hne hrec
    by_cases h0 : st.finalizedEpoch = 0
    · rw [h0] at hrec ⊢
      rw [hzero.resolve_left hrec, (hok.finalized h0).resolve_left hne]
    · rw [hres.roots _ (UInt64.pos_iff_ne_zero.mpr h0), if_pos rfl]
  · rw [hje, hjr]
    exact hok.justified
  · rw [hfe, hfr]
    exact hok.finalized
  · rw [hres.persisted]
    exact hq.durable
  · have hsame : st.finalizedEpoch = q.finalizedEpoch := hfe.symm.trans hsame
    have hroot := hok.root hsame hne
    refine ⟨hfr.trans hroot, fun hrec => ?_⟩
    by_cases h0 : q.finalizedEpoch = 0
    · rw [h0] at hrec ⊢
      rcases hres.genesis with h | ⟨h0', hne', h⟩ | ⟨h0', hne', h⟩
      · exact h
      · rw [h, hq.epochZero.resolve_left hrec]
        exact (hok.justified h0').resolve_left hne'
      · rw [h, hq.epochZero.resolve_left hrec]
        exact (hok.finalized h0').resolve_left hne'
    · rw [hres.roots _ (UInt64.pos_iff_ne_zero.mpr h0), if_pos hsame, hroot]
      exact (hq.root hne hrec).symm

end

/-- A careful call keeps the state sound and the finalized root in place. -/
theorem sound_step (sch : SignatureScheme) (hq : Sound genesis q) (hok : Careful genesis q c) :
    Sound genesis (step sch q c) ∧ KeepsFinalized q (step sch q c) := by
  cases checkpointStep sch q c with
  | same kept hper =>
    exact sound_kept hq kept.finality (kept.getEpochBlockRoot _) (kept.getEpochBlockRoot 0) hper
  | tally _ hadv => exact sound_tally hq hadv
  | adopt hop _ heq =>
    rw [heq]
    unfold Careful at hok
    rw [hop] at hok
    exact sound_adopt hq hok c.env
  | record hop heq =>
    rw [heq]
    unfold Careful at hok
    rcases hop with hop | ⟨hop, -⟩ <;> rw [hop] at hok <;> exact sound_record hq hok c.env
  | reorg _ heq =>
    rw [heq]
    exact sound_reorg hq _ _ _
  | restore hop hres hle _ _ =>
    unfold Careful at hok
    rw [hop] at hok
    exact sound_restore hq hok hres hle

end Step

/-! ## Runs -/

section Run

variable {sch : SignatureScheme} {validators : List Validator} {cutover : Epoch} {genesis : Hash}
  {q q₂ : QPOS}

/-- The start state is the empty one with the genesis root at epoch 0 and
slot 0. -/
theorem startQPOS_eq (validators : List Validator) (cutover : Epoch) (genesis : Hash) :
    startQPOS validators cutover genesis =
      { newQPOS validators cutover with
        epochBlockRoots := (∅ : Fmap Epoch Hash).insert 0 genesis
        slotBlockRoots := (∅ : Fmap Slot Hash).insert 0 genesis } := by
  unfold startQPOS QPOS.setGenesisRoot
  rw [if_neg]
  · rfl
  · simp [newQPOS, QPOS.getEpochBlockRoot]

theorem getEpochBlockRoot_startQPOS (validators : List Validator) (cutover : Epoch)
    (genesis : Hash) : (startQPOS validators cutover genesis).getEpochBlockRoot 0 = genesis := by
  rw [startQPOS_eq]
  unfold QPOS.getEpochBlockRoot
  rw [Fmap.getElem?_insert_self]
  rfl

theorem sound_startQPOS : Sound genesis (startQPOS validators cutover genesis) := by
  have hroot := getEpochBlockRoot_startQPOS validators cutover genesis
  rw [startQPOS_eq] at hroot ⊢
  refine ⟨UInt64.le_refl _, fun hne => absurd rfl hne, .inr hroot, fun _ => .inl rfl,
    fun _ => .inl rfl, fun st hst => ?_⟩
  cases hst

/-- A fresh node with the same genesis root takes over a recoverable record. -/
theorem restore_of_recoverable (h : Recoverable genesis st) :
    ∃ q', (startQPOS validators cutover genesis).restoreFinalityState st = .ok q' ∧
      q'.finality = st := by
  have hroot := getEpochBlockRoot_startQPOS validators cutover genesis
  rcases QPOS.restoreFinalityState_spec (startQPOS validators cutover genesis) st with
    ⟨q', heq, hres, -⟩ | ⟨-, hno⟩
  · exact ⟨q', heq, hres.finality⟩
  · refine absurd ⟨h.le, h.rooted, ?_⟩ hno
    refine ⟨?_, ?_, ?_, ?_, ?_, ?_, ?_⟩
    · rw [startQPOS_eq]
      exact UInt64.zero_le
    · rw [startQPOS_eq]
      exact UInt64.zero_le
    · rw [startQPOS_eq]
      exact fun hpos => absurd hpos UInt64.not_lt_zero
    · rw [startQPOS_eq]
      exact fun hpos => absurd hpos UInt64.not_lt_zero
    · rw [hroot]
      exact fun h0 hne => .inr ((h.justified h0).resolve_left hne).symm
    · rw [hroot]
      exact fun h0 hne => .inr ((h.finalized h0).resolve_left hne).symm
    · intro h0 h0' hne hne'
      rw [(h.justified h0).resolve_left hne, (h.finalized h0').resolve_left hne']

theorem sound_of_reachable
    (h : Reachable (step sch) (Careful genesis) (startQPOS validators cutover genesis) q) :
    Sound genesis q :=
  h.invariant sound_startQPOS fun _ _ hq hok => (sound_step sch hq hok).1

/-- Along a careful run the checkpoints do not go back, and while the
finalized epoch stays, so do its roots. -/
theorem run_keeps (hq : Sound genesis q) (h : Reachable (step sch) (Careful genesis) q q₂) :
    Sound genesis q₂ ∧ (q.justifiedEpoch ≤ q₂.justifiedEpoch ∧ q.finalizedEpoch ≤ q₂.finalizedEpoch) ∧
      KeepsFinalized q q₂ := by
  induction h with
  | init => exact ⟨hq, ⟨UInt64.le_refl _, UInt64.le_refl _⟩, fun _ _ => ⟨rfl, fun _ => rfl⟩⟩
  | @next s c _ hok ih =>
    obtain ⟨hs, hmono, hkeep⟩ := ih
    obtain ⟨hs', hkeep'⟩ := sound_step sch hs hok
    obtain ⟨hj, hf⟩ := (checkpointStep sch s c).mono
    refine ⟨hs', ⟨UInt64.le_trans hmono.1 hj, UInt64.le_trans hmono.2 hf⟩, fun hsame hne => ?_⟩
    have hmid : s.finalizedEpoch = q.finalizedEpoch := by
      rw [hsame] at hf
      exact UInt64.le_antisymm hf hmono.2
    obtain ⟨hr, hrec⟩ := hkeep hmid hne
    obtain ⟨hr', hrec'⟩ := hkeep' (hsame.trans hmid.symm) (hr ▸ hne)
    refine ⟨hr'.trans hr, fun hne' => ?_⟩
    have hstay := hrec hne'
    rw [hmid] at hrec'
    exact (hrec' (hstay ▸ hne')).trans hstay

/-- The finality state in every run whose effective calls are careful: the
finalized epoch does not exceed the justified one, the durable copy is
accepted and reproduced by a fresh node, and from every state reached on, the
epochs do not decrease and the roots of the latest finalized epoch do not
change. -/
theorem finality_run (h : Reachable (step sch) (Guarded (step sch) (Careful genesis))
      (startQPOS validators cutover genesis) q) :
    q.finalizedEpoch ≤ q.justifiedEpoch ∧
    (∀ st, q.persisted = some st →
      ∃ q', (startQPOS validators cutover genesis).restoreFinalityState st = .ok q' ∧
        q'.finality = st) ∧
    (∀ q₂, Reachable (step sch) (Guarded (step sch) (Careful genesis)) q q₂ →
      (q.justifiedEpoch ≤ q₂.justifiedEpoch ∧ q.finalizedEpoch ≤ q₂.finalizedEpoch) ∧
        KeepsFinalized q q₂) := by
  have hq := sound_of_reachable h.of_guarded
  refine ⟨hq.le, fun st hst => restore_of_recoverable (hq.durable st hst), fun q₂ h₂ => ?_⟩
  exact (run_keeps hq h₂.of_guarded).2

/-! ### Two headers

The durable store is connected, and the root of epoch 1 (and of epoch 5) is
recorded. A header that justifies and finalizes epoch 1 is adopted and can
be restored. A header of epoch 5 that justifies epoch 1 and finalizes epoch 5
passes the check as well. -/

def checkpointRoot (n : UInt8) : Hash := copyInto 32 [n]

def connected : QPOS :=
  (startQPOS [] 0 (checkpointRoot 9)).setFinalityPersistCallback (clockAt 0)

def rootedNode : QPOS := connected.setEpochBlockRoot (clockAt 0) 1 (checkpointRoot 1)

def adoptedNode : QPOS := rootedNode.adoptHeaderFinality (clockAt 0) 1 1 (checkpointRoot 7)

def overtakenNode : QPOS :=
  (rootedNode.setEpochBlockRoot (clockAt 0) 5 (checkpointRoot 5)).adoptHeaderFinality
    (clockAt 0) 1 5 (checkpointRoot 7)

theorem adoptedNode_reachable (sch : SignatureScheme) :
    Reachable (step sch) (Careful (checkpointRoot 9)) (startQPOS [] 0 (checkpointRoot 9))
      adoptedNode := by
  have h1 : Reachable (step sch) (Careful (checkpointRoot 9)) (startQPOS [] 0 (checkpointRoot 9))
      connected := .next (Call.mk (clockAt 0) .setFinalityPersistCallback) .init trivial
  have h2 : Reachable (step sch) (Careful (checkpointRoot 9)) (startQPOS [] 0 (checkpointRoot 9))
      rootedNode := by
    refine .next (Call.mk (clockAt 0) (.setEpochBlockRoot 1 (checkpointRoot 1))) h1 ?_
    refine ⟨fun h => absurd h (by decide), fun h => absurd h (by decide +kernel), fun h => ?_⟩
    exact absurd (by decide +kernel) h
  exact .next (Call.mk (clockAt 0) (.adoptHeaderFinality 1 1 2 (checkpointRoot 7))) h2
    (.inr (.inr (by decide)))

theorem finality_run_adopted :
    adoptedNode.persisted = some ⟨1, 1, checkpointRoot 1, checkpointRoot 1⟩ ∧
      ∃ q', (startQPOS [] 0 (checkpointRoot 9)).restoreFinalityState
          ⟨1, 1, checkpointRoot 1, checkpointRoot 1⟩ = .ok q' ∧
        q'.finality = ⟨1, 1, checkpointRoot 1, checkpointRoot 1⟩ := by
  have hst : adoptedNode.persisted = some ⟨1, 1, checkpointRoot 1, checkpointRoot 1⟩ := by
    decide +kernel
  have hrun := finality_run (adoptedNode_reachable ⟨fun _ => true, fun _ _ _ => true⟩).guarded
  exact ⟨hst, hrun.2.1 _ hst⟩

/-- The finalized epoch overtakes the justified one, and the record that the
store then holds is refused by the restore. -/
theorem finality_run_overtaken : headerFinalityCheckpointsValid 1 5 5 = true ∧
      overtakenNode.justifiedEpoch = 1 ∧ overtakenNode.finalizedEpoch = 5 ∧
      overtakenNode.persisted = some ⟨1, 5, checkpointRoot 1, checkpointRoot 5⟩ ∧
      (startQPOS [] 0 (checkpointRoot 9)).restoreFinalityState
        ⟨1, 5, checkpointRoot 1, checkpointRoot 5⟩ =
          .error (.finalizedExceedsJustified 5 1) := by
  refine ⟨by decide, by decide +kernel, by decide +kernel, by decide +kernel, by rfl⟩

end Run

end Qau.Consensus
