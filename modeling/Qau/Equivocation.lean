import Qau.Punishable

/-!
# Which equivocations come to light

Two conflicting votes of one validator are submitted one after the other,
with anything in between that keeps the recorded votes. Evidence comes up
when a vote is compared with a recorded one, so the checks in front of that
comparison decide: a vote that is taken for a repetition of the vote of its
slot, or whose form is refused, is neither compared nor recorded.
`named_processAttestation` says what one call does, `equivocation_iff` what
two calls do.
-/

namespace Qau.Consensus

open QPOS

variable {existing : Attestation} {ev : SlashingEvidence}

/-- Evidence that names `addr` has reached the queue or the manager. -/
def Named (q : QPOS) (addr : Address) : Prop :=
  ∃ ev, (ev ∈ q.evidenceQueue ∨ ev ∈ q.submitted) ∧ ev.validatorAddr = addr

/-- Evidence against `addr` finds a taker: the manager, or room in the queue,
which does not take the zero address. -/
def Deliverable (q : QPOS) (addr : Address) : Prop :=
  q.slashingManager = true ∨ addr ≠ zeroArr 20 ∧ q.evidenceQueue.length < maxEvidenceQueue

/-! ## Delivery -/

section Delivery

variable {q : QPOS} {ev : SlashingEvidence} {addr : Address}

theorem named_of_filter {n : Nat} (hn : 0 < n)
    (h : n ≤ (q.evidenceQueue.filter fun e => e.validatorAddr = addr).length) : Named q addr := by
  obtain ⟨e, he⟩ := List.exists_mem_of_length_pos (lt_of_lt_of_le hn h)
  obtain ⟨hmem, heq⟩ := List.mem_filter.mp he
  exact ⟨e, .inl hmem, of_decide_eq_true heq⟩

theorem named_queueSlashingEvidence
    (hev : wellFormedEvidence ev = true ↔ ev.validatorAddr ≠ zeroArr 20) :
    Named (q.queueSlashingEvidence ev) ev.validatorAddr ↔
      Named q ev.validatorAddr ∨
        ev.validatorAddr ≠ zeroArr 20 ∧ q.evidenceQueue.length < maxEvidenceQueue := by
  unfold queueSlashingEvidence
  split
  · next hw =>
    have hz : ¬ ev.validatorAddr ≠ zeroArr 20 := by
      rw [← hev]
      simpa using hw
    exact ⟨.inl, fun h => h.resolve_right fun h' => hz h'.1⟩
  next hw =>
  have hz : ev.validatorAddr ≠ zeroArr 20 := hev.mp (by simpa using hw)
  split
  · next hcap => exact ⟨.inl, fun _ => named_of_filter (by decide) hcap⟩
  split
  · next hfull =>
    have hroom : ¬ (ev.validatorAddr ≠ zeroArr 20 ∧ q.evidenceQueue.length < maxEvidenceQueue) :=
      fun h => absurd h.2 (Nat.not_lt.mpr hfull)
    split
    · next i hi =>
      obtain ⟨hlt, hat, -⟩ := List.findIdx?_eq_some_iff_getElem.mp hi
      refine ⟨fun _ => .inl ⟨q.evidenceQueue[i], .inl (List.getElem_mem hlt),
        of_decide_eq_true hat⟩, fun _ => ⟨ev, .inl ?_, rfl⟩⟩
      exact List.mem_append_right _ (List.mem_singleton.mpr rfl)
    · exact ⟨.inl, fun h => h.resolve_right hroom⟩
  · next hroom =>
    refine ⟨fun _ => .inr ⟨hz, Nat.lt_of_not_le hroom⟩, fun _ => ⟨ev, .inl ?_, rfl⟩⟩
    exact List.mem_append_right _ (List.mem_singleton.mpr rfl)

theorem named_reportEvidence (hev : wellFormedEvidence ev = true ↔ ev.validatorAddr ≠ zeroArr 20) :
    Named (q.reportEvidence ev) ev.validatorAddr ↔
      Named q ev.validatorAddr ∨ Deliverable q ev.validatorAddr := by
  have hqueue := named_queueSlashingEvidence (q := q) hev
  obtain ⟨queue, hform⟩ := queueSlashingEvidence_eq q ev
  unfold reportEvidence Deliverable
  dsimp only
  have hman : (q.queueSlashingEvidence ev).slashingManager = q.slashingManager := by rw [hform]
  rw [hman]
  by_cases hm : q.slashingManager = true
  · rw [if_pos hm]
    refine ⟨fun _ => .inr (.inl hm), fun _ => ⟨ev, .inr ?_, rfl⟩⟩
    exact List.mem_append_right _ (List.mem_singleton.mpr rfl)
  · rw [if_neg hm, hqueue]
    exact or_congr_right ⟨.inr, fun h => h.resolve_left hm⟩

end Delivery

/-! ## One call -/

/-- An attestation that may not escape: validly signed by an active validator
that is not slashed, inside the slot window. -/
structure Eligible (sch : SignatureScheme) (env : Env) (q : QPOS) (v : Validator)
    (att : Attestation) : Prop extends Entitled env q v att where
  signed : q.verifyAttestationSignature sch env v att = .ok ()

/-- The attestation gets as far as the slashing checks: no recorded vote of
its slot is for the same block, and its form is accepted. -/
def Heard (env : Env) (q : QPOS) (v : Validator) (att : Attestation) : Prop :=
  (∀ existing, (q.votesOf att.validatorIndex)[att.slot]? = some existing →
    existing.beaconBlockRoot ≠ att.beaconBlockRoot) ∧ q.checkForm env v att = .ok ()

/-- A recorded vote of the validator conflicts with the attestation, or is
for the same slot. -/
def Clash (q : QPOS) (att : Attestation) : Prop :=
  ∃ (s : Slot) (existing : Attestation), (q.votesOf att.validatorIndex)[s]? = some existing ∧
    (s = att.slot ∨ conflictKind att existing ≠ none)

section Call

variable {sch : SignatureScheme} {env : Env} {q : QPOS} {v w : Validator} {att : Attestation}

theorem Eligible.passes_iff (h : Eligible sch env q v att) :
    QPOS.Passes sch env q v att ↔ Heard env q v att :=
  ⟨fun hp => ⟨(admission_eq_ok.mp hp.admitted).unseen, hp.form⟩,
    fun hh => ⟨admission_eq_ok.mpr ⟨h.toEntitled, hh.1⟩, h.signed, hh.2⟩⟩

theorem Eligible.validator_eq (h : Eligible sch env q v att)
    (hp : QPOS.Passes sch env q w att) : w = v := by
  have hw := (admission_eq_ok.mp hp.admitted).validator
  rw [h.validator] at hw
  exact (Option.some.inj hw).symm

theorem clash_of_reports (h : QPOS.Reports env q v att existing ev) : Clash q att := by
  cases h with
  | sameSlot hst _ => exact ⟨att.slot, existing, hst, .inl rfl⟩
  | conflict _ hs =>
    obtain ⟨⟨s, hst⟩, hkind⟩ := checkSurroundVote_eq_some hs
    exact ⟨s, existing, hst, .inr (by rw [hkind]; exact Option.some_ne_none _)⟩

/-- A vote that gets to the slashing checks and clashes is reported. -/
theorem reports_of_clash (hh : Heard env q v att) (hc : Clash q att) :
    ∃ existing ev, QPOS.Reports env q v att existing ev := by
  obtain ⟨s, existing, hst, hcl⟩ := hc
  cases hd : q.checkDoubleVote env v att with
  | some ev =>
    unfold checkDoubleVote at hd
    split at hd
    · cases hd
    · next old hold => exact ⟨old, _, .sameSlot hold (hh.1 old hold)⟩
  | none =>
    cases hs : q.checkSurroundVote env att with
    | some found =>
      obtain ⟨old, kind⟩ := found
      exact ⟨old, _, .conflict hd hs⟩
    | none =>
      rcases hcl with rfl | hkind
      · have hne := hh.1 existing hst
        simp [checkDoubleVote, hst, hne] at hd
      · exact absurd (checkSurroundVote_eq_none.mp hs s existing hst) hkind

theorem wellFormed_doubleVoteEvidence (existing : Attestation) :
    wellFormedEvidence (q.doubleVoteEvidence env v existing att) = true ↔
      v.address ≠ zeroArr 20 := by
  unfold wellFormedEvidence doubleVoteEvidence
  rw [Bool.and_eq_true, decide_eq_true_iff]
  exact and_iff_left rfl

theorem wellFormed_surroundEvidence (existing : Attestation) (kind : VoteConflict) :
    wellFormedEvidence (q.surroundEvidence v att existing kind) = true ↔
      v.address ≠ zeroArr 20 := by
  unfold wellFormedEvidence surroundEvidence
  rw [Bool.and_eq_true, decide_eq_true_iff]
  cases kind with
  | double | surround => exact and_iff_left rfl

/-- Reported evidence names the validator and is well formed for every
address but the zero one. -/
theorem reports_evidence (h : QPOS.Reports env q v att existing ev) : ev.validatorAddr = v.address ∧
      (wellFormedEvidence ev = true ↔ ev.validatorAddr ≠ zeroArr 20) := by
  cases h with
  | sameSlot _ _ => exact ⟨rfl, wellFormed_doubleVoteEvidence existing⟩
  | conflict _ _ => exact ⟨rfl, wellFormed_surroundEvidence existing _⟩

theorem named_congr {q q' : QPOS} (hq : q'.evidenceQueue = q.evidenceQueue)
    (hs : q'.submitted = q.submitted) (addr : Address) : Named q' addr ↔ Named q addr := by
  unfold Named
  rw [hq, hs]

theorem named_promoteFor (addr : Address) : Named (q.promoteFor w att) addr ↔ Named q addr := by
  obtain ⟨reg, h⟩ := promoteFor_eq q w att
  rw [h]
  exact named_congr rfl rfl addr

theorem named_processAttestation (h : Eligible sch env q v att) :
    Named (q.processAttestation sch env att).2 v.address ↔
      Named q v.address ∨ Heard env q v att ∧ Clash q att ∧ Deliverable q v.address := by
  rcases processAttestation_cases sch env q att with
    ⟨err, hno, heq⟩ | ⟨w, existing, ev, err, hp, hr, heq⟩ | ⟨w, hp, hr, -, heq⟩ | ⟨w, hp, hst, heq⟩
  · have hnot : ¬ Heard env q v att := fun hh => hno v (h.passes_iff.mpr hh)
    have hsame : Named (q.processAttestation sch env att).2 v.address ↔ Named q v.address := by
      rcases heq with heq | ⟨w, heq⟩
      · rw [heq]
      · rw [heq]
        exact named_promoteFor _
    rw [hsame]
    exact ⟨.inl, fun hn => hn.resolve_right fun hc => hnot hc.1⟩
  · obtain rfl := h.validator_eq hp
    have hheard := h.passes_iff.mp hp
    obtain ⟨haddr, hwell⟩ := reports_evidence hr
    obtain ⟨reg, hreg⟩ := promoteFor_eq q w att
    have hnamed := named_reportEvidence (q := q.promoteFor w att) hwell
    rw [haddr, named_promoteFor] at hnamed
    have hdel : Deliverable (q.promoteFor w att) w.address ↔ Deliverable q w.address := by
      rw [hreg]
      exact Iff.rfl
    rw [heq, hnamed, hdel]
    exact or_congr_right ⟨fun hd => ⟨hheard, clash_of_reports hr, hd⟩, fun hd => hd.2.2⟩
  · obtain rfl := h.validator_eq hp
    have hnot : ¬ Clash q att := fun hc => by
      obtain ⟨existing, ev, hrep⟩ := reports_of_clash (h.passes_iff.mp hp) hc
      exact hr existing ev hrep
    rw [heq, named_promoteFor]
    exact ⟨.inl, fun hn => hn.resolve_right fun hc => hnot hc.2.1⟩
  · obtain rfl := h.validator_eq hp
    have hnot : ¬ Clash q att := by
      rintro ⟨s, existing, hold, rfl | hkind⟩
      · rw [(admission_eq_ok.mp hp.admitted).votesOf_slot hst.noDouble] at hold
        cases hold
      · exact hkind (checkSurroundVote_eq_none.mp hst.noConflict s existing hold)
    obtain ⟨reg, hreg⟩ := promoteFor_eq q w att
    obtain ⟨j, jr, f, fr, pin, pending, persisted, hform⟩ :=
      tryUpdateFinality_eq env ((q.promoteFor w att).store att)
    have hsame : Named (q.processAttestation sch env att).2 w.address ↔ Named q w.address := by
      rw [heq]
      dsimp only
      rw [hform, hreg]
      exact named_congr rfl rfl _
    rw [hsame]
    exact ⟨.inl, fun hn => hn.resolve_right fun hc => hnot hc.2.1⟩

/-- The call records the vote. -/
def Recorded (env : Env) (q : QPOS) (v : Validator) (att : Attestation) : Prop :=
  Heard env q v att ∧ ¬ Clash q att ∧ ∀ a ∈ q.storedAt att.slot, a.validatorIndex ≠ att.validatorIndex

theorem votesOf_processAttestation (h : Eligible sch env q v att) (hr : Recorded env q v att) :
    ((q.processAttestation sch env att).2.votesOf att.validatorIndex)[att.slot]? = some att := by
  obtain ⟨hheard, hclash, hfirst⟩ := hr
  have hp := h.passes_iff.mpr hheard
  have hst : QPOS.Stores env q v att := by
    refine ⟨?_, ?_, hfirst⟩
    · unfold checkDoubleVote
      split
      · rfl
      · next existing hold => exact absurd ⟨_, existing, hold, .inl rfl⟩ hclash
    · refine checkSurroundVote_eq_none.mpr fun s a ha => ?_
      by_contra hkind
      exact hclash ⟨s, a, ha, .inr hkind⟩
  rw [processAttestation_of_stores hp hst]
  dsimp only
  rw [(SameVotes.tryUpdateFinality _).votesOf, getElem?_votesOf_store, if_pos ⟨rfl, rfl⟩]

end Call

/-! ## Two calls -/

/-- The two votes conflict: different roots for one target epoch, or one
surrounds the other. -/
def Conflicting (a b : Attestation) : Prop :=
  (a.target.epoch = b.target.epoch ∧ a.target.root ≠ b.target.root) ∨ a.Surrounds b ∨ b.Surrounds a

theorem Conflicting.conflictKind {a b : Attestation} (h : Conflicting a b) :
    conflictKind b a ≠ none := by
  unfold Qau.Consensus.conflictKind
  split_ifs with hs ht h1 h2
  · exact Option.some_ne_none _
  · exact Option.some_ne_none _
  · exact Option.some_ne_none _
  · exact Option.some_ne_none _
  · rcases h with ⟨he, hr⟩ | hsur | hsur
    · exact absurd ⟨he.symm, fun heq => hr heq.symm⟩ ht
    · exact absurd hsur h2
    · exact absurd hsur h1

/-- Two conflicting votes of one address, the first submitted in state
`q` and the second in a later state `q₂` that keeps the votes recorded by
then. Evidence against the validator comes up exactly when it was there
already, or one of the votes is heard while a recorded vote conflicts with
it and there is somewhere to deliver to; the first vote counts as recorded
when it was heard without a clash. -/
theorem equivocation_iff {sch : SignatureScheme} {env env₂ : Env} {q q₂ : QPOS} {v v₂ : Validator}
    {first second : Attestation} (h₁ : Eligible sch env q v first)
    (h₂ : Eligible sch env₂ q₂ v₂ second) (haddr : v₂.address = v.address)
    (hidx : first.validatorIndex = second.validatorIndex) (hconf : Conflicting first second) (hkeep : ∀ (s : Slot) (a : Attestation),
      ((q.processAttestation sch env first).2.votesOf first.validatorIndex)[s]? = some a →
        (q₂.votesOf first.validatorIndex)[s]? = some a) :
    (Named (q.processAttestation sch env first).2 v.address ∨
        Named (q₂.processAttestation sch env₂ second).2 v.address) ↔
      (Named q v.address ∨ Named q₂ v.address) ∨
      (Heard env q v first ∧ Clash q first ∧ Deliverable q v.address) ∨
      (Heard env₂ q₂ v₂ second ∧ (Recorded env q v first ∨ Clash q₂ second) ∧
        Deliverable q₂ v.address) := by
  have hclash : Recorded env q v first → Clash q₂ second := fun hr => by
    refine ⟨first.slot, first, ?_, .inr hconf.conflictKind⟩
    rw [← hidx]
    exact hkeep _ _ (votesOf_processAttestation h₁ hr)
  have hor : (Recorded env q v first ∨ Clash q₂ second) ↔ Clash q₂ second :=
    ⟨fun h => h.elim hclash id, .inr⟩
  have hsecond := named_processAttestation h₂
  rw [haddr] at hsecond
  rw [named_processAttestation h₁, hsecond, hor]
  exact or_or_or_comm ..

/-- Votes of slots 33 and 34 for different targets of epoch 1. -/
theorem equivocation_secondTarget :
    Named (aliceVoted.processAttestation aliceScheme (clockAt 40) (aliceAttestation 34 1 2)).2
      alice := by
  have hfirst : Eligible aliceScheme (clockAt 40) aliceNode aliceValidator
      (aliceAttestation 33 1 1) := by
    refine ⟨?_, by decide +kernel⟩
    constructor <;> decide +kernel
  have hsecond : Eligible aliceScheme (clockAt 40) aliceVoted aliceValidator
      (aliceAttestation 34 1 2) := by
    refine ⟨?_, by decide +kernel⟩
    constructor <;> decide +kernel
  have hnone : ∀ (s : Slot) (a : Attestation), ¬ (aliceNode.votesOf 0)[s]? = some a := by
    intro s a h
    simp [aliceNode, newQPOS, votesOf] at h
  have hheard : Heard (clockAt 40) aliceNode aliceValidator (aliceAttestation 33 1 1) :=
    ⟨fun e he => absurd he (hnone _ e), by decide +kernel⟩
  have hrec : Recorded (clockAt 40) aliceNode aliceValidator (aliceAttestation 33 1 1) :=
    ⟨hheard, fun h => h.elim fun s h => h.elim fun e h => hnone s e h.1, by decide +kernel⟩
  have hheard' : Heard (clockAt 40) aliceVoted aliceValidator (aliceAttestation 34 1 2) := by
    refine ⟨fun e he => ?_, by decide +kernel⟩
    have hfree : (aliceVoted.votesOf 0)[(34 : Slot)]? = none := by decide +kernel
    exact absurd (hfree.symm.trans he) (by simp)
  have hpair := (equivocation_iff hfirst hsecond rfl rfl (.inl ⟨rfl, by decide⟩)
    (fun _ _ h => h)).mpr (.inr (.inr ⟨hheard', .inl hrec, .inr ⟨by decide, by decide +kernel⟩⟩))
  refine hpair.resolve_left ?_
  rintro ⟨ev, hev, -⟩
  have hqueue : aliceVoted.evidenceQueue = [] ∧ aliceVoted.submitted = [] := by decide +kernel
  rcases hev with hev | hev
  · exact absurd (hqueue.1 ▸ hev : ev ∈ []) List.not_mem_nil
  · exact absurd (hqueue.2 ▸ hev : ev ∈ []) List.not_mem_nil

/-- Two votes of slot 33 for one block and different targets of epoch 1:
in either order the second is taken for a repetition of the first, and
there is no evidence. -/
theorem equivocation_sameBlock :
    let run a b := ((aliceNode.processAttestation aliceScheme (clockAt 40) a).2.processAttestation
      aliceScheme (clockAt 40) b)
    let one := aliceAttestation 33 1 1
    let two := aliceAttestation 33 1 2
    Conflicting one two ∧
      Eligible aliceScheme (clockAt 40) aliceNode aliceValidator one ∧
      Eligible aliceScheme (clockAt 40) aliceNode aliceValidator two ∧
      ((run one two).1 = .error .duplicateAttestation ∧ (run one two).2.evidenceQueue = [] ∧
        (run one two).2.submitted = []) ∧
      ((run two one).1 = .error .duplicateAttestation ∧ (run two one).2.evidenceQueue = [] ∧
        (run two one).2.submitted = []) := by
  refine ⟨.inl ⟨rfl, by decide⟩, ?_, ?_, by decide +kernel, by decide +kernel⟩
  · refine ⟨?_, by decide +kernel⟩
    constructor <;> decide +kernel
  · refine ⟨?_, by decide +kernel⟩
    constructor <;> decide +kernel

end Qau.Consensus
