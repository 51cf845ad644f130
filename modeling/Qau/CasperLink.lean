import Qau.FinalityRun

/-!
# Supermajority links

Casper finalizes an epoch when two thirds of the weight vote from it to the
next epoch, and justifies an epoch when two thirds vote for it from one
justified checkpoint. The tally of `tryUpdateFinality` asks less: a vote
counts for the previous epoch whatever justified epoch it comes from, and
the finalized epoch is found by comparing epoch numbers. Where the votes
that count have the justified checkpoint as their source, the tally is the
Casper rule (`casper_links`). `casper_links_fromGenesis` is a run in which
epoch 1 becomes final and every vote ever accepted comes from genesis.
-/

namespace Qau.Consensus

open QPOS

variable {q q' : QPOS} {accepted : List Attestation} {c : Call}

/-- The engine with the attestations it has accepted so far. -/
structure Logged where
  node : QPOS
  accepted : List Attestation

variable {s : Logged}

def acceptedBy (sch : SignatureScheme) (q : QPOS) (c : Call) : List Attestation :=
  match c.op with
  | .processAttestation att =>
    match (q.processAttestation sch c.env att).1 with
    | .ok () => [att]
    | .error _ => []
  | _ => []

def Logged.step (sch : SignatureScheme) (s : Logged) (c : Call) : Logged where
  node := Qau.Consensus.step sch s.node c
  accepted := s.accepted ++ acceptedBy sch s.node c

/-- Validators that are active and not slashed hold two thirds of the weight
of all such validators, and each has cast an accepted vote from `source` to
`target`. -/
def Link (q : QPOS) (accepted : List Attestation) (source target : Checkpoint) : Prop :=
  ∃ voters : List Int, voters.Nodup ∧
    (∀ idx ∈ voters, idx ∉ q.slashedValidators ∧
      (∃ v, q.validatorAt idx = some v ∧ v.active = true) ∧
      ∃ att ∈ accepted, att.validatorIndex = idx ∧ att.source = source ∧ att.target = target) ∧
    q.totalWeight target.epoch * 2 ≤ (voters.map (q.weightOf target.epoch)).sum * 3

/-- The votes of a slot once `att` is stored. -/
def votesWith (q : QPOS) (att : Attestation) (slot : Slot) : List Attestation :=
  q.storedAt slot ++ if att.slot = slot then [att] else []

/-- If `prevEpoch` is not justified yet, every vote that counts for it once
`att` is stored has the justified checkpoint as its source. -/
def SourceJustified (q : QPOS) (prevEpoch : Epoch) (att : Attestation) : Prop :=
  q.justifiedEpoch < prevEpoch → ∀ slot ∈ slotsOf prevEpoch, ∀ a ∈ votesWith q att slot,
    q.counts prevEpoch slot a = true → a.source = ⟨q.justifiedEpoch, q.justifiedRoot⟩

instance (q : QPOS) (prevEpoch : Epoch) (att : Attestation) :
    Decidable (SourceJustified q prevEpoch att) :=
  -- through the list of slots: slots have finitely many values, but too many
  have : Decidable (∀ slot ∈ slotsOf prevEpoch, ∀ a ∈ votesWith q att slot,
      q.counts prevEpoch slot a = true → a.source = ⟨q.justifiedEpoch, q.justifiedRoot⟩) :=
    List.decidableBAll _ _
  inferInstanceAs (Decidable (_ → _))

/-- No header is adopted and nothing is restored, and the votes that the
tally of an attestation counts come from the justified checkpoint. -/
def OneSource (q : QPOS) (c : Call) : Prop :=
  match c.op with
  | .processAttestation att => SourceJustified q (q.currentFinalityEpoch c.env - 1) att
  | .adoptHeaderFinality _ _ _ _ => False
  | .restoreFinalityState _ => False
  | _ => True

instance (q : QPOS) (c : Call) : Decidable (OneSource q c) := by
  unfold OneSource
  split <;> infer_instance

/-! ## Stored votes were accepted -/

theorem SameStore.storedAt (h : SameStore q q') (slot : Slot) :
    q'.storedAt slot = q.storedAt slot := by
  unfold QPOS.storedAt
  rw [h.attestations]

theorem storedAt_store (q : QPOS) (att : Attestation) (slot : Slot) :
    (q.store att).storedAt slot = votesWith q att slot := by
  unfold QPOS.storedAt store votesWith
  rw [Fmap.getElem?_insert]
  by_cases h : att.slot = slot
  · subst h
    rw [if_pos rfl, if_pos rfl]
    rfl
  · rw [if_neg h, if_neg h, List.append_nil]
    rfl

theorem mem_storedAt_prune {keep slot : Slot} {a : Attestation}
    (h : a ∈ (q.pruneOldAttestations keep).storedAt slot) : a ∈ q.storedAt slot := by
  unfold QPOS.storedAt pruneOldAttestations at h
  rw [Std.ExtTreeMap.getElem?_filter'] at h
  unfold QPOS.storedAt
  cases hs : q.attestations[slot]? with
  | none => simp [hs] at h
  | some votes =>
    rw [hs, Option.filter_some] at h
    split_ifs at h
    · exact h
    · simp at h

/-- Every vote in the store was accepted. -/
def StoreAccepted (s : Logged) : Prop :=
  ∀ (slot : Slot), ∀ a ∈ s.node.storedAt slot, a ∈ s.accepted

theorem storeAccepted_step (sch : SignatureScheme) (c : Call) (hs : StoreAccepted s) :
    StoreAccepted (s.step sch c) := by
  intro slot a ha
  have ha : a ∈ (step sch s.node c).storedAt slot := ha
  rcases step_votes sch s.node c with hsame | ⟨_, _, _, -, hsame⟩ |
    ⟨v, att, hop, hp, hst, hsame⟩ | ⟨keep, -, heq⟩
  · rw [hsame.storedAt] at ha
    exact List.mem_append_left _ (hs slot a ha)
  · rw [hsame.storedAt] at ha
    exact List.mem_append_left _ (hs slot a ha)
  · rw [hsame.storedAt, storedAt_store] at ha
    rcases List.mem_append.mp ha with ha | ha
    · exact List.mem_append_left _ (hs slot a ha)
    · refine List.mem_append_right _ ?_
      split_ifs at ha
      · rw [List.mem_singleton.mp ha]
        unfold acceptedBy
        rw [hop]
        dsimp only
        rw [processAttestation_of_stores hp hst]
        exact List.mem_singleton.mpr rfl
      · exact absurd ha List.not_mem_nil
  · rw [heq] at ha
    exact List.mem_append_left _ (hs slot a (mem_storedAt_prune ha))

/-! ## The tally as a link -/

section Tally

variable {q : QPOS} {accepted : List Attestation} {prevEpoch : Epoch} {source : Checkpoint}

theorem link_of_supermajority (hs : q.supermajority prevEpoch = true)
    (hacc : ∀ (slot : Slot), ∀ a ∈ q.storedAt slot, a ∈ accepted)
    (hsource : ∀ slot ∈ slotsOf prevEpoch, ∀ a ∈ q.storedAt slot,
      q.counts prevEpoch slot a = true → a.source = source) :
    Link q accepted source ⟨prevEpoch, q.getEpochBlockRoot prevEpoch⟩ := by
  obtain ⟨voters, hnodup, -, hcast, hweight⟩ := supermajority_spec hs
  refine ⟨voters, hnodup, fun idx hidx => ?_, hweight⟩
  obtain ⟨slot, hslot, att, hatt, hc, rfl⟩ := hcast idx hidx
  obtain ⟨htarget, -, -, -, -, hsl, hv⟩ := counts_eq_true hc
  exact ⟨hsl, hv, att, hacc slot att hatt, rfl, hsource slot hslot att hatt hc, htarget⟩

/-- A supermajority for an epoch has a vote, which names its source root. -/
theorem sourceRoot_of_supermajority (hs : q.supermajority prevEpoch = true)
    (hsource : ∀ slot ∈ slotsOf prevEpoch, ∀ a ∈ q.storedAt slot,
      q.counts prevEpoch slot a = true → a.source = source) (hpos : 0 < source.epoch) :
    source.root = q.getEpochBlockRoot source.epoch := by
  obtain ⟨voters, -, hlen, hcast, -⟩ := supermajority_spec hs
  obtain ⟨idx, hidx⟩ := List.exists_mem_of_length_pos (lt_of_lt_of_le (by decide) hlen)
  obtain ⟨slot, hslot, att, hatt, hc, -⟩ := hcast idx hidx
  have heq := hsource slot hslot att hatt hc
  obtain ⟨-, -, -, -, hroot, -, -⟩ := counts_eq_true hc
  rw [heq] at hroot
  exact (hroot hpos).1

end Tally

/-- What a call that moves a checkpoint shows. -/
structure MovesByLink (q q' : QPOS) (accepted : List Attestation) : Prop where
  justified : q'.justifiedEpoch ≠ q.justifiedEpoch →
    Link q accepted ⟨q.justifiedEpoch, q.justifiedRoot⟩
      ⟨q'.justifiedEpoch, q'.getEpochBlockRoot q'.justifiedEpoch⟩
  finalized : q'.finalizedEpoch ≠ q.finalizedEpoch →
    Link q accepted ⟨q'.finalizedEpoch, q'.finalizedRoot⟩
      ⟨q'.finalizedEpoch + 1, q'.getEpochBlockRoot (q'.finalizedEpoch + 1)⟩

theorem MovesByLink.of_same (hj : q'.justifiedEpoch = q.justifiedEpoch)
    (hf : q'.finalizedEpoch = q.finalizedEpoch) : MovesByLink q q' accepted :=
  ⟨fun h => absurd hj h, fun h => absurd hf h⟩

theorem movesByLink_tally (env : Env) (hacc : ∀ (slot : Slot), ∀ a ∈ q.storedAt slot, a ∈ accepted)
    (hsource : q.justifiedEpoch < q.currentFinalityEpoch env - 1 →
      ∀ slot ∈ slotsOf (q.currentFinalityEpoch env - 1), ∀ a ∈ q.storedAt slot,
        q.counts (q.currentFinalityEpoch env - 1) slot a = true →
          a.source = ⟨q.justifiedEpoch, q.justifiedRoot⟩) :
    MovesByLink q (q.tryUpdateFinality env) accepted := by
  rcases tryUpdateFinality_cases env q with heq | ⟨p, hpos, hp, hs, hsame, -⟩
  · rw [heq]
    exact .of_same rfl rfl
  · rw [← hp] at hsource
    obtain ⟨hroots, -, hj, hf⟩ := advanceCheckpoints_spec (q := q) hpos rfl
    have hroot : ∀ x, (q.tryUpdateFinality env).getEpochBlockRoot x = q.getEpochBlockRoot x := by
      intro x
      rw [hsame.getEpochBlockRoot, roots_of_eq hroots]
    constructor
    · intro hne
      rw [hsame.justifiedEpoch] at hne ⊢
      split_ifs at hj with hlt
      · rw [hroot, hj.1]
        exact link_of_supermajority hs hacc (hsource hlt)
      · exact absurd hj.1 hne
    · intro hne
      rw [hsame.finalizedEpoch] at hne ⊢
      rcases hf with ⟨h, -⟩ | ⟨h, -⟩ | ⟨hfj, hnext, hlt, hfe, hfr⟩
      · exact absurd h hne
      · exact absurd h hne
      · have hjpos : 0 < q.justifiedEpoch := UInt64.lt_of_le_of_lt UInt64.zero_le hfj
        have hsr := sourceRoot_of_supermajority hs (hsource hlt) hjpos
        rw [hroot, hsame.finalizedRoot, hfe, hfr, hnext, ← hsr]
        exact link_of_supermajority hs hacc (hsource hlt)

theorem movesByLink_processAttestation (sch : SignatureScheme) {att : Attestation}
    (hs : StoreAccepted (s.step sch c)) (hok : OneSource s.node c)
    (hop : c.op = .processAttestation att) :
    MovesByLink s.node (step sch s.node c) (s.step sch c).accepted := by
  have hstep : step sch s.node c = (s.node.processAttestation sch c.env att).2 := by
    unfold step
    rw [hop]
  have hsame : ∀ v, (s.node.promoteFor v att).justifiedEpoch = s.node.justifiedEpoch ∧
      (s.node.promoteFor v att).finalizedEpoch = s.node.finalizedEpoch := by
    intro v
    obtain ⟨reg, h⟩ := promoteFor_eq s.node v att
    rw [h]
    exact ⟨rfl, rfl⟩
  rw [hstep]
  rcases processAttestation_cases sch c.env s.node att with
    ⟨err, -, heq | ⟨v, heq⟩⟩ | ⟨v, existing, ev, err, -, -, heq⟩ | ⟨v, -, -, -, heq⟩ | ⟨v, -, -, heq⟩
  · rw [heq]
    exact .of_same rfl rfl
  · rw [heq]
    exact .of_same (hsame v).1 (hsame v).2
  · obtain ⟨queue, submitted, h⟩ := reportEvidence_eq (s.node.promoteFor v att) ev
    rw [heq]
    rw [h]
    exact .of_same (hsame v).1 (hsame v).2
  · rw [heq]
    exact .of_same (hsame v).1 (hsame v).2
  · obtain ⟨reg, h⟩ := promoteFor_eq s.node v att
    have hacc : ∀ (slot : Slot), ∀ a ∈ ((s.node.promoteFor v att).store att).storedAt slot,
        a ∈ (s.step sch c).accepted := by
      intro slot a ha
      refine hs slot a ?_
      have hnode : (s.step sch c).node = (s.node.processAttestation sch c.env att).2 := hstep
      rw [hnode, heq, (SameVotes.tryUpdateFinality _).storedAt]
      exact ha
    unfold OneSource at hok
    rw [hop] at hok
    have hm := movesByLink_tally c.env hacc fun hlt slot hslot a ha hc => by
      rw [storedAt_store] at ha
      rw [h] at hlt hslot ha hc ⊢
      exact hok hlt slot hslot a ha hc
    rw [heq]
    rw [h] at hm ⊢
    exact ⟨hm.justified, hm.finalized⟩

theorem movesByLink_step (sch : SignatureScheme) (hs : StoreAccepted s) (hok : OneSource s.node c) :
    MovesByLink s.node (step sch s.node c) (s.step sch c).accepted := by
  have hcs := checkpointStep sch s.node c
  have hproc : ∀ att, c.op = .processAttestation att →
      MovesByLink s.node (step sch s.node c) (s.step sch c).accepted :=
    fun _ => movesByLink_processAttestation sch (storeAccepted_step sch c hs) hok
  cases hcs with
  | same kept _ => exact .of_same kept.justifiedEpoch kept.finalizedEpoch
  | tally hop _ => exact hproc _ hop
  | adopt hop _ _ | restore hop _ _ _ _ =>
    unfold OneSource at hok
    rw [hop] at hok
    exact hok.elim
  | @record epoch root _ heq =>
    rw [heq]
    rcases setEpochBlockRoot_spec c.env s.node epoch root with ⟨-, hsame⟩ | ⟨-, hfin, -⟩
    · rw [hsame]
      exact .of_same rfl rfl
    · obtain ⟨hj, hf, -⟩ := fields_of_finality hfin
      exact .of_same hj hf
  | reorg _ heq =>
    rw [heq]
    obtain ⟨hj, hf, -⟩ :=
      fields_of_finality (reanchorSlotRoots_checkpoint s.node _ _ _).1
    exact .of_same hj hf

/-! ## Runs -/

/-- In every run from genesis, a call that moves a checkpoint moves it by a
supermajority link, if the votes it counts have the justified checkpoint as
their source: the justified one from the checkpoint justified before, and the
finalized one to the epoch after it. -/
theorem casper_links {sch : SignatureScheme} {validators : List Validator} {cutover : Epoch}
    {genesis : Hash} {s : Logged} {c : Call}
    (h : Reachable (Logged.step sch) (fun _ _ => True)
      ⟨startQPOS validators cutover genesis, []⟩ s)
    (hok : ¬ ((s.step sch c).node.justifiedEpoch = s.node.justifiedEpoch ∧
      (s.step sch c).node.finalizedEpoch = s.node.finalizedEpoch) → OneSource s.node c) :
    MovesByLink s.node (s.step sch c).node (s.step sch c).accepted := by
  have hs : StoreAccepted s := by
    refine h.invariant (fun slot a ha => ?_) fun s c hs _ => storeAccepted_step sch c hs
    rw [startQPOS_eq] at ha
    simp [QPOS.storedAt, newQPOS] at ha
  by_cases hsame : (s.step sch c).node.justifiedEpoch = s.node.justifiedEpoch ∧
      (s.step sch c).node.finalizedEpoch = s.node.finalizedEpoch
  · exact .of_same hsame.1 hsame.2
  · exact movesByLink_step sch hs (hok hsame)

/-! ### Three voters

Three validators of equal stake vote in epoch 1 from genesis, which
justifies epoch 1, and then in epoch 2 from a source that the run chooses. -/

section Sample

def voter (n : UInt8) : Validator := ⟨copyInto 20 [n], [n], some 1, true⟩

/-- A scheme in which a validator signs with the bytes of its key. -/
def voterScheme : SignatureScheme where
  validKey _ := true
  verify pk _ sig := sig = pk

def voterStart : QPOS := startQPOS [voter 1, voter 2, voter 3] 100 (checkpointRoot 9)

/-- A vote of the `n`-th validator. -/
def voterCall (clock : Nat) (slot : Slot) (n : UInt8) (source target : Checkpoint) : Call where
  env := clockAt clock
  op := .processAttestation
    { slot := slot
      beaconBlockRoot := checkpointRoot 7
      source := source
      target := target
      validatorIndex := n.toNat - 1
      signature := [n]
      keyVersion := 0 }

/-- The calls before the last vote of epoch 2. -/
def voterCalls (source : Checkpoint) : List Call :=
  [⟨clockAt 64, .setEpochBlockRoot 1 (checkpointRoot 1)⟩,
   ⟨clockAt 64, .setEpochBlockRoot 2 (checkpointRoot 2)⟩] ++
  ([1, 2, 3].map fun n => voterCall 64 40 n ⟨0, zeroHash⟩ ⟨1, checkpointRoot 1⟩) ++
  ([1, 2].map fun n => voterCall 96 70 n source ⟨2, checkpointRoot 2⟩)

def lastVote (source : Checkpoint) : Call := voterCall 96 70 3 source ⟨2, checkpointRoot 2⟩

def voterRun (source : Checkpoint) : Logged :=
  (voterCalls source).foldl (Logged.step voterScheme) ⟨voterStart, []⟩

/-- With epoch 1 as the source of epoch 2, the last vote makes epoch 1 final
and epoch 2 justified, by the link between them. -/
theorem casper_links_fromEpochOne : Link (voterRun ⟨1, checkpointRoot 1⟩).node
      ((voterRun ⟨1, checkpointRoot 1⟩).step voterScheme (lastVote ⟨1, checkpointRoot 1⟩)).accepted
      ⟨1, checkpointRoot 1⟩ ⟨2, checkpointRoot 2⟩ := by
  have hrun : Reachable (Logged.step voterScheme) (fun _ _ => True)
      ⟨voterStart, []⟩ (voterRun ⟨1, checkpointRoot 1⟩) := by
    exact Reachable.init.foldl (by decide +kernel)
  have hlast : OneSource (voterRun ⟨1, checkpointRoot 1⟩).node (lastVote ⟨1, checkpointRoot 1⟩) := by
    decide +kernel
  exact (casper_links hrun fun _ => hlast).finalized (by decide +kernel)

/-- With genesis as the source of every vote, the last vote makes epoch 1
final as well. -/
theorem casper_links_fromGenesis : let s := voterRun ⟨0, zeroHash⟩
    let s' := s.step voterScheme (lastVote ⟨0, zeroHash⟩)
    s.node.finalizedEpoch = 0 ∧ s'.node.finalizedEpoch = 1 ∧
      (∀ att ∈ s'.accepted, att.source = ⟨0, zeroHash⟩) ∧
      ¬ MovesByLink s.node s'.node s'.accepted := by
  intro s s'
  have hbefore : s.node.finalizedEpoch = 0 := by decide +kernel
  have hafter : s'.node.finalizedEpoch = 1 := by decide +kernel
  have hsource : ∀ att ∈ s'.accepted, att.source = ⟨0, zeroHash⟩ := by decide +kernel
  refine ⟨hbefore, hafter, hsource, fun hm => ?_⟩
  obtain ⟨voters, -, hcast, hweight⟩ := hm.finalized (by rw [hbefore, hafter]; decide)
  cases voters with
  | nil =>
    exact absurd hweight (by decide +kernel)
  | cons idx _ =>
    obtain ⟨-, -, att, hatt, -, heq, -⟩ := hcast idx List.mem_cons_self
    rw [hsource att hatt] at heq
    exact absurd (congrArg Checkpoint.epoch heq) (by decide)

end Sample

end Qau.Consensus
