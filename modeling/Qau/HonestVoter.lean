import Qau.CasperLink

/-!
# The votes of an honest validator

A validator asks its node for an attestation once per slot and signs what it
gets. `CreateAttestation` takes the source from the node's justified
checkpoint, pinned per epoch by `attestationSources`, and the target from
the root recorded for the epoch. The invariant (`Consistent`) says that the
sources grow with the targets and that the recorded root of an epoch that
was voted for is the one voted for, or none.

The node breaks it in three ways: a reorg or a new boundary block that
replaces the root of an epoch voted for, a new root for a justified epoch
that was a source, and an epoch that is justified, not final, and not voted
in yet. Without these (`Stable`) the votes are never slashable
(`honest_votes`); `honest_votes_reorged` is a run with a reorg.
-/

namespace Qau.Consensus

open Std.ExtTreeMap QPOS

/-! ## Checkpoints in order -/

/-- An earlier checkpoint, or the same one. -/
def Checkpoint.Le (a b : Checkpoint) : Prop :=
  a.epoch ≤ b.epoch ∧ (a.epoch = b.epoch → a.root = b.root)

namespace Checkpoint.Le

variable {a b c : Checkpoint}

theorem refl (a : Checkpoint) : a.Le a := ⟨UInt64.le_refl _, fun _ => rfl⟩

theorem of_lt (h : a.epoch < b.epoch) : a.Le b :=
  ⟨UInt64.le_of_lt h, fun heq => absurd heq (UInt64.ne_of_lt h)⟩

theorem trans (hab : a.Le b) (hbc : b.Le c) : a.Le c := by
  refine ⟨UInt64.le_trans hab.1 hbc.1, fun heq => ?_⟩
  have hab' : a.epoch = b.epoch := UInt64.le_antisymm hab.1 (heq ▸ hbc.1)
  rw [hab.2 hab', hbc.2 (hab' ▸ heq)]

end Checkpoint.Le

def QPOS.justified (q : QPOS) : Checkpoint := ⟨q.justifiedEpoch, q.justifiedRoot⟩

theorem QPOS.justified_of_finality {q q' : QPOS} (h : q'.finality = q.finality) :
    q'.justified = q.justified := by
  obtain ⟨he, -, hr, -⟩ := fields_of_finality h
  exact congrArg₂ Checkpoint.mk he hr

theorem QPOS.justified_le {q q' : QPOS}
    (h : (q'.justifiedEpoch = q.justifiedEpoch ∧ q'.justifiedRoot = q.justifiedRoot) ∨
      q.justifiedEpoch < q'.justifiedEpoch) : q.justified.Le q'.justified := by
  rcases h with ⟨he, hr⟩ | h
  · unfold justified
    rw [he, hr]
    exact .refl _
  · exact .of_lt h

/-! ## The voter -/

/-- A node, the attestations that it created for one validator, and the last
slot it created one for. -/
structure Voter where
  node : QPOS
  votes : List Attestation
  last : Slot

/-- The attestation that a call creates for the validator. -/
def createdBy (idx : Int) (q : QPOS) (c : Call) : List Attestation :=
  match c.op with
  | .createAttestation slot blockRoot i =>
    if i = idx then (q.createAttestation slot blockRoot i).1.toList else []
  | _ => []

def Voter.step (sch : SignatureScheme) (idx : Int) (s : Voter) (c : Call) : Voter where
  node := Qau.Consensus.step sch s.node c
  votes := s.votes ++ createdBy idx s.node c
  last := match c.op with
    | .createAttestation slot _ _ => slot
    | _ => s.last

/-- The node is asked in the order of the slots, and for this validator once
per slot. -/
def Honest (idx : Int) (s : Voter) (c : Call) : Prop :=
  match c.op with
  | .createAttestation slot _ i => s.last ≤ slot ∧ (i = idx → ∀ a ∈ s.votes, a.slot < slot)
  | _ => True

/-- The epoch has a source before it: the justified epoch is earlier, or a
source is pinned, or the epoch is final and its predecessor serves. -/
def HasSource (q : QPOS) (epoch : Epoch) : Prop :=
  q.getEpochBlockRoot epoch ≠ zeroHash →
    q.justifiedEpoch < epoch ∨ (q.attestationSources[epoch]?).isSome ∨
      0 < epoch ∧ epoch ≤ q.finalizedEpoch

/-- A checkpoint is the source of a vote, or pinned. -/
def Voter.InUse (s : Voter) (src : Checkpoint) : Prop :=
  (∃ a ∈ s.votes, a.source = src) ∨ ∃ e : Epoch, s.node.attestationSources[e]? = some src

/-- A new root for an epoch is the one voted for, and if the epoch is the
justified one and a source in use, the root stays. -/
structure Agrees (s : Voter) (epoch : Epoch) (root : Hash) : Prop where
  target : ∀ a ∈ s.votes, a.target.epoch = epoch → a.target.root = root
  source : epoch = s.node.justifiedEpoch → root = s.node.justifiedRoot ∨
    ∀ src, s.InUse src → src.epoch ≠ epoch

/-- A reorg leaves the epoch alone: it is a checkpoint of the node, or its
boundary is below the abandoned range, or the new chain has the same root
for it. -/
def LeavesEpoch (q : QPOS) (roots : Fmap Slot Hash) (bounds : ReanchorBounds)
    (target : Checkpoint) : Prop :=
  q.anchored target.epoch = true ∨ ∀ range, reanchorCleanRange roots bounds = some range →
    firstReachedEpoch range.1 ≤ target.epoch →
      bounds.epochRoots[target.epoch]? = some target.root ∧ target.root ≠ zeroHash

/-- What keeps the votes of an honest validator consistent. Nothing is
restored, since a restart is not among the events here. -/
def Stable (s : Voter) (c : Call) : Prop :=
  match c.op with
  | .createAttestation slot _ _ => HasSource s.node (slotToEpoch slot)
  | .setEpochBlockRoot epoch root =>
    s.node.finalizedRootFixed epoch root = false → Agrees s epoch root
  | .ensureEpochBlockRoot epoch root => s.node.epochBlockRoots[epoch]? = none → Agrees s epoch root
  | .reanchorSlotRoots roots _ bounds => ∀ a ∈ s.votes, LeavesEpoch s.node roots bounds a.target
  | .restoreFinalityState _ => False
  | _ => True

/-! ## Pinned sources -/

section Sources

variable {q : QPOS}

theorem getElem?_recentSources_self (q : QPOS) (epoch : Epoch) :
    (q.recentSources epoch)[epoch]? = q.attestationSources[epoch]? := by
  unfold recentSources
  rw [getElem?_filter']
  cases q.attestationSources[epoch]? with
  | none => rfl
  | some src => simp [Option.filter]

theorem getElem?_of_recentSources {e : Epoch} (h : (q.recentSources epoch)[e]? = some src) :
    q.attestationSources[e]? = some src := by
  unfold recentSources at h
  rw [getElem?_filter', Option.filter_eq_some_iff] at h
  exact h.1

/-- The source of a new vote: pinned, the predecessor of a final epoch, or
the justified checkpoint. -/
theorem attestationSource_cases (h : q.attestationSource epoch = some src) :
    q.attestationSources[epoch]? = some src ∨
      q.attestationSources[epoch]? = none ∧
        ((0 < epoch ∧ epoch ≤ q.justifiedEpoch ∧ src.epoch = epoch - 1) ∨
          (¬ (0 < epoch ∧ epoch ≤ q.justifiedEpoch ∧ epoch ≤ q.finalizedEpoch) ∧
            src = q.justified)) := by
  unfold attestationSource at h
  split at h
  · exact .inl (h ▸ ‹_›)
  next hnone =>
    refine .inr ⟨hnone, ?_⟩
    split_ifs at h with hfin hroot
    · exact .inl ⟨hfin.1, hfin.2.1, (Option.some.inj h) ▸ rfl⟩
    · exact .inr ⟨hfin, (Option.some.inj h).symm⟩

/-- What `CreateAttestation` does: it drops old sources and gives no
attestation, or it pins the source and gives one, or the source is not
before the epoch. -/
theorem createAttestation_cases (q : QPOS) (slot : Slot) (blockRoot : Hash) (idx : Int) :
    (∃ sources, (sources = q.attestationSources ∨ sources = q.recentSources (slotToEpoch slot)) ∧
      q.createAttestation slot blockRoot idx = (none, { q with attestationSources := sources })) ∨
    ∃ src, q.attestationSource (slotToEpoch slot) = some src ∧
      q.getEpochBlockRoot (slotToEpoch slot) ≠ zeroHash ∧
      (q.createAttestation slot blockRoot idx).1 = some
        { slot := slot
          beaconBlockRoot := blockRoot
          source := src
          target := ⟨slotToEpoch slot, q.getEpochBlockRoot (slotToEpoch slot)⟩
          validatorIndex := idx
          signature := []
          keyVersion := q.currentKeyVersion } ∧
      (src.epoch < slotToEpoch slot → (q.createAttestation slot blockRoot idx).2 =
        { q with attestationSources :=
          (q.recentSources (slotToEpoch slot)).insert (slotToEpoch slot) src }) := by
  unfold createAttestation
  dsimp only
  cases q.attestationSource (slotToEpoch slot) with
  | none => exact .inl ⟨q.attestationSources, .inl rfl, rfl⟩
  | some src =>
    dsimp only
    split_ifs with hroot hlt
    · exact .inl ⟨q.attestationSources, .inl rfl, rfl⟩
    · exact .inl ⟨_, .inr rfl, rfl⟩
    · exact .inr ⟨src, rfl, hroot, rfl, fun _ => rfl⟩
    · exact .inr ⟨src, rfl, hroot, rfl, fun h => absurd h hlt⟩

end Sources

/-! ## The invariant -/

/-- Two votes of one validator that no check reports. -/
structure Compatible (a b : Attestation) : Prop where
  source : a.target.epoch ≤ b.target.epoch → a.source.Le b.source
  target : a.target.epoch = b.target.epoch → a.target.root = b.target.root
  slot : a.slot = b.slot → a = b

structure Consistent (idx : Int) (s : Voter) : Prop where
  index : ∀ a ∈ s.votes, a.validatorIndex = idx
  last : ∀ a ∈ s.votes, a.slot ≤ s.last
  form : ∀ a ∈ s.votes, a.target.epoch = slotToEpoch a.slot ∧ a.source.epoch < a.target.epoch
  target : ∀ a ∈ s.votes, s.node.getEpochBlockRoot a.target.epoch = zeroHash ∨
    s.node.getEpochBlockRoot a.target.epoch = a.target.root
  source : ∀ src, s.InUse src → src.Le s.node.justified
  pinned : ∀ (e : Epoch) (src : Checkpoint), s.node.attestationSources[e]? = some src →
    e ≤ slotToEpoch s.last ∧ src.epoch < e ∧ ∀ a ∈ s.votes, a.target.epoch ≤ e → a.source.Le src
  current : ∀ a ∈ s.votes, a.target.epoch = slotToEpoch s.last →
    s.node.attestationSources[a.target.epoch]? = some a.source
  pairs : ∀ a ∈ s.votes, ∀ b ∈ s.votes, Compatible a b

section Step

variable {sch : SignatureScheme} {idx : Int} {s : Voter} {c : Call}

section
variable (hs : Consistent idx s)
include hs

theorem Consistent.of_node {q : QPOS} (hsrc : q.attestationSources = s.node.attestationSources)
    (hroot : ∀ a ∈ s.votes, q.getEpochBlockRoot a.target.epoch = zeroHash ∨
      q.getEpochBlockRoot a.target.epoch = a.target.root ∨
      q.getEpochBlockRoot a.target.epoch = s.node.getEpochBlockRoot a.target.epoch)
    (hj : ∀ src, s.InUse src → src.Le s.node.justified → src.Le q.justified) :
    Consistent idx { s with node := q } where
  index := hs.index
  last := hs.last
  form := hs.form
  target a ha := by
    rcases hroot a ha with h | h | h
    · exact .inl h
    · exact .inr h
    · rw [h]
      exact hs.target a ha
  source src h := by
    have huse : s.InUse src := by
      unfold Voter.InUse at h
      rw [hsrc] at h
      exact h
    exact hj src huse (hs.source src huse)
  pinned := hsrc ▸ hs.pinned
  current := hsrc ▸ hs.current
  pairs := hs.pairs

/-- The source that a new vote takes is before its epoch, not after the
justified checkpoint, and not before the source of any vote so far. -/
theorem Consistent.newSource (hlast : s.last ≤ slot) (hhas : HasSource s.node (slotToEpoch slot))
    (hroot : s.node.getEpochBlockRoot (slotToEpoch slot) ≠ zeroHash)
    (h : s.node.attestationSource (slotToEpoch slot) = some src) :
    src.epoch < slotToEpoch slot ∧ src.Le s.node.justified ∧ ∀ a ∈ s.votes, a.source.Le src := by
  have hle : ∀ a ∈ s.votes, a.target.epoch ≤ slotToEpoch slot := fun a ha => by
    rw [(hs.form a ha).1]
    exact slotToEpoch_mono (UInt64.le_trans (hs.last a ha) hlast)
  rcases attestationSource_cases h with hpin | ⟨hnone, ⟨hpos, hj, hepoch⟩ | ⟨hfin, rfl⟩⟩
  · obtain ⟨-, hlt, hvotes⟩ := hs.pinned _ _ hpin
    exact ⟨hlt, hs.source src (.inr ⟨_, hpin⟩), fun a ha => hvotes a ha (hle a ha)⟩
  · refine ⟨by rw [hepoch]; grind, .of_lt ?_, fun a ha => .of_lt ?_⟩
    · show src.epoch < s.node.justifiedEpoch
      rw [hepoch]
      grind
    · have hne : a.target.epoch ≠ slotToEpoch slot := by
        intro heq
        have hl : slotToEpoch s.last = slotToEpoch slot := by
          refine UInt64.le_antisymm (slotToEpoch_mono hlast) ?_
          rw [← heq, (hs.form a ha).1]
          exact slotToEpoch_mono (hs.last a ha)
        have hcur := hs.current a ha (heq.trans hl.symm)
        rw [heq, hnone] at hcur
        cases hcur
      have h1 := (hs.form a ha).2
      have h2 := hle a ha
      rw [hepoch]
      grind
  · refine ⟨?_, .refl _, fun a ha => hs.source _ (.inl ⟨a, ha, rfl⟩)⟩
    show s.node.justifiedEpoch < slotToEpoch slot
    rcases hhas hroot with h | h | h
    · exact h
    · rw [hnone] at h
      cases h
    · by_contra hn
      exact hfin ⟨h.1, UInt64.not_lt.mp hn, h.2⟩

theorem Consistent.advance (hlast : s.last ≤ slot) {sources : Fmap Epoch Checkpoint}
    (hsub : ∀ (e : Epoch) (src : Checkpoint), sources[e]? = some src →
      s.node.attestationSources[e]? = some src)
    (hcur : sources[slotToEpoch slot]? = s.node.attestationSources[slotToEpoch slot]?) :
    Consistent idx ⟨{ s.node with attestationSources := sources }, s.votes, slot⟩ where
  index := hs.index
  last a ha := UInt64.le_trans (hs.last a ha) hlast
  form := hs.form
  target := hs.target
  source src h := by
    refine hs.source src ?_
    rcases h with h | ⟨e, h⟩
    · exact .inl h
    · exact .inr ⟨e, hsub e src h⟩
  pinned e src h := by
    obtain ⟨he, hlt, hvotes⟩ := hs.pinned e src (hsub e src h)
    exact ⟨UInt64.le_trans he (slotToEpoch_mono hlast), hlt, hvotes⟩
  current a ha heq := by
    have heq : a.target.epoch = slotToEpoch slot := heq
    have hl : a.target.epoch = slotToEpoch s.last := by
      refine UInt64.le_antisymm ?_ (heq ▸ slotToEpoch_mono hlast)
      rw [(hs.form a ha).1]
      exact slotToEpoch_mono (hs.last a ha)
    have hold := hs.current a ha hl
    show sources[a.target.epoch]? = _
    rw [heq, hcur, ← heq]
    exact hold
  pairs := hs.pairs

theorem Consistent.pin (hlt : src.epoch < slotToEpoch s.last) (hj : src.Le s.node.justified)
    (hvotes : ∀ a ∈ s.votes, a.source.Le src)
    (hsame : ∀ old, s.node.attestationSources[slotToEpoch s.last]? = some old → old = src) :
    Consistent idx ⟨{ s.node with
      attestationSources := s.node.attestationSources.insert (slotToEpoch s.last) src },
      s.votes, s.last⟩ where
  index := hs.index
  last := hs.last
  form := hs.form
  target := hs.target
  source src' h := by
    rcases h with h | ⟨e, h⟩
    · exact hs.source src' (.inl h)
    · dsimp only at h
      rw [Fmap.getElem?_insert] at h
      split_ifs at h
      · cases h
        exact hj
      · exact hs.source src' (.inr ⟨e, h⟩)
  pinned e src' h := by
    dsimp only at h
    rw [Fmap.getElem?_insert] at h
    split_ifs at h with he
    · cases h
      subst he
      exact ⟨UInt64.le_refl _, hlt, fun a ha _ => hvotes a ha⟩
    · exact hs.pinned e src' h
  current a ha heq := by
    have hold := hs.current a ha heq
    have heq : a.target.epoch = slotToEpoch s.last := heq
    dsimp only
    rw [heq] at hold ⊢
    rw [Fmap.getElem?_insert_self, hsame _ hold]
  pairs := hs.pairs

theorem Consistent.cast {att : Attestation} (hidx : att.validatorIndex = idx)
    (hslot : att.slot = s.last)
    (htarget : att.target = ⟨slotToEpoch s.last, s.node.getEpochBlockRoot (slotToEpoch s.last)⟩)
    (hroot : s.node.getEpochBlockRoot (slotToEpoch s.last) ≠ zeroHash)
    (hpin : s.node.attestationSources[slotToEpoch s.last]? = some att.source)
    (hnew : ∀ a ∈ s.votes, a.slot < s.last) :
    Consistent idx { s with votes := s.votes ++ [att] } := by
  have hte : att.target.epoch = slotToEpoch s.last := by rw [htarget]
  have htr : att.target.root = s.node.getEpochBlockRoot (slotToEpoch s.last) := by rw [htarget]
  have hepoch : ∀ a ∈ s.votes, a.target.epoch ≤ slotToEpoch s.last := fun a ha => by
    rw [(hs.form a ha).1]
    exact slotToEpoch_mono (hs.last a ha)
  obtain ⟨-, hlt, hvotes⟩ := hs.pinned _ _ hpin
  have hbefore : ∀ a ∈ s.votes, Compatible a att := by
    intro a ha
    refine ⟨fun _ => hvotes a ha (hepoch a ha), fun heq => ?_, fun heq => ?_⟩
    · rw [hte] at heq
      have := hs.target a ha
      rw [heq] at this
      rw [htr]
      exact (this.resolve_left hroot).symm
    · exact absurd (heq.trans hslot) (UInt64.ne_of_lt (hnew a ha))
  have hafter : ∀ b ∈ s.votes, Compatible att b := by
    intro b hb
    refine ⟨fun hle => ?_, fun heq => ((hbefore b hb).target heq.symm).symm,
      fun heq => ((hbefore b hb).slot heq.symm).symm⟩
    have hb' : b.target.epoch = slotToEpoch s.last :=
      UInt64.le_antisymm (hepoch b hb) (hte ▸ hle)
    have hcur := hs.current b hb hb'
    rw [hb', hpin] at hcur
    rw [Option.some.inj hcur]
    exact .refl _
  constructor
  case index => exact forall_mem_snoc hs.index hidx
  case last =>
    refine forall_mem_snoc hs.last ?_
    rw [hslot]
    exact UInt64.le_refl _
  case form =>
    refine forall_mem_snoc hs.form ?_
    rw [hte, hslot]
    exact ⟨rfl, hlt⟩
  case target =>
    refine forall_mem_snoc hs.target ?_
    rw [hte, htr]
    exact .inr rfl
  case source =>
    intro src h
    refine hs.source src ?_
    rcases h with ⟨a, ha, rfl⟩ | h
    · rcases List.mem_append.mp ha with ha | ha
      · exact .inl ⟨a, ha, rfl⟩
      · rw [List.mem_singleton.mp ha]
        exact .inr ⟨_, hpin⟩
    · exact .inr h
  case pinned =>
    intro e src h
    obtain ⟨he, hlt', hv⟩ := hs.pinned e src h
    refine ⟨he, hlt', forall_mem_snoc hv fun hle => ?_⟩
    have heq : e = slotToEpoch s.last := UInt64.le_antisymm he (hte ▸ hle)
    have h : s.node.attestationSources[e]? = some src := h
    rw [heq, hpin] at h
    rw [Option.some.inj h]
    exact .refl _
  case current => exact forall_mem_snoc hs.current fun _ => hte.symm ▸ hpin
  case pairs =>
    refine forall_mem_snoc (fun a ha => forall_mem_snoc (hs.pairs a ha) (hbefore a ha))
      (forall_mem_snoc hafter ?_)
    exact ⟨fun _ => .refl _, fun _ => rfl, fun _ => rfl⟩

theorem consistent_create {blockRoot : Hash} {i : Int}
    (hop : c.op = .createAttestation slot blockRoot i) (hhon : Honest idx s c) (hst : Stable s c) :
    Consistent idx (s.step sch idx c) := by
  unfold Honest at hhon
  unfold Stable at hst
  rw [hop] at hhon hst
  obtain ⟨hlast, hnew⟩ := hhon
  have hstep : s.step sch idx c = ⟨(s.node.createAttestation slot blockRoot i).2,
      s.votes ++ if i = idx then (s.node.createAttestation slot blockRoot i).1.toList else [],
      slot⟩ := by
    unfold Voter.step step createdBy
    rw [hop]
  rw [hstep]
  rcases createAttestation_cases s.node slot blockRoot i with
    ⟨sources, hsources, heq⟩ | ⟨src, hsrc, hroot, hatt, hnode⟩
  · have hvotes : s.votes ++ (if i = idx then
        (s.node.createAttestation slot blockRoot i).1.toList else []) = s.votes := by
      rw [heq]
      split_ifs <;> exact List.append_nil _
    rw [hvotes, heq]
    rcases hsources with rfl | rfl
    · exact hs.advance hlast (fun _ _ h => h) rfl
    · exact hs.advance hlast (fun _ _ => getElem?_of_recentSources)
        (getElem?_recentSources_self _ _)
  · obtain ⟨hlt, hj, hvotes⟩ := hs.newSource hlast hst hroot hsrc
    have hpin := (hs.advance hlast (fun _ _ => getElem?_of_recentSources)
      (getElem?_recentSources_self _ _)).pin hlt hj hvotes fun old hold => by
        rw [getElem?_recentSources_self] at hold
        unfold attestationSource at hsrc
        rw [hold] at hsrc
        exact Option.some.inj hsrc
    rw [hnode hlt, hatt]
    split_ifs with hi
    · exact hpin.cast hi rfl rfl hroot (Fmap.getElem?_insert_self _ _ _) (hnew hi)
    · rw [List.append_nil]
      exact hpin

end

theorem getEpochBlockRoot_reanchor {q : QPOS} {roots : Fmap Slot Hash} {bounds : ReanchorBounds}
    {target : Checkpoint} (h : LeavesEpoch q roots bounds target) (vrfAccUpdates : Fmap Slot Hash) :
    (q.reanchorSlotRoots roots vrfAccUpdates bounds).2.getEpochBlockRoot target.epoch = target.root ∨
      (q.reanchorSlotRoots roots vrfAccUpdates bounds).2.getEpochBlockRoot target.epoch =
        q.getEpochBlockRoot target.epoch := by
  cases hacc : (q.reanchorSlotRoots roots vrfAccUpdates bounds).1 with
  | false => exact .inr (by rw [reanchorSlotRoots_eq_false hacc])
  | true =>
    rcases reanchorSlotRoots_eq_true hacc with ⟨-, heq⟩ | ⟨cleanMin, cleanMax, hr, -, heq⟩
    · exact .inr (by rw [heq])
    · rw [heq]
      unfold getEpochBlockRoot
      dsimp only
      by_cases hkept : q.anchored target.epoch = true ∨ ¬ firstReachedEpoch cleanMin ≤ target.epoch
      · rw [getElem?_reanchoredEpochs_of_kept hkept]
        exact .inr rfl
      · obtain ⟨hanch, hreach⟩ := not_or.mp hkept
        obtain ⟨hroot, hne⟩ := (h.resolve_left hanch) _ hr (not_not.mp hreach)
        rw [getElem?_reanchoredEpochs_of_reached (by simpa using hanch) (not_not.mp hreach),
          hroot, Option.getD_some, if_pos hne]
        exact .inl rfl

theorem consistent_record (hs : Consistent idx s) {root : Hash}
    (hagree : s.node.finalizedRootFixed epoch root = false → Agrees s epoch root)
    (hsrc : (s.node.setEpochBlockRoot c.env epoch root).attestationSources =
      s.node.attestationSources) :
    Consistent idx { s with node := s.node.setEpochBlockRoot c.env epoch root } := by
  rcases setEpochBlockRoot_spec c.env s.node epoch root with ⟨-, heq⟩ | ⟨hfix, hfin, -, hroots⟩
  · rw [heq]
    exact hs
  · obtain ⟨htarget, hsource⟩ := hagree hfix
    refine hs.of_node hsrc (fun a ha => ?_) fun src huse h => ?_
    · rw [hroots]
      split_ifs with hp he
      · exact .inl rfl
      · exact .inr (.inl (htarget a ha he.symm).symm)
      · exact .inr (.inr rfl)
    · rw [justified_of_finality hfin]
      refine ⟨h.1, fun heq => ?_⟩
      show src.root = if s.node.justifiedEpoch = epoch then root else s.node.justifiedRoot
      have heq : src.epoch = s.node.justifiedEpoch := heq
      split_ifs with hje
      · rcases hsource hje.symm with hr | hno
        · rw [hr]
          exact h.2 heq
        · exact absurd (heq.trans hje) (hno src huse)
      · exact h.2 heq

theorem consistent_other (hs : Consistent idx s)
    (hop : ∀ slot root i, c.op ≠ .createAttestation slot root i) (hst : Stable s c) :
    Consistent idx (s.step sch idx c) := by
  have hcs := checkpointStep sch s.node c
  have hsrc := sources_step sch s.node c hop
  have hstep : s.step sch idx c = { s with node := step sch s.node c } := by
    unfold Voter.step createdBy
    obtain ⟨env, op⟩ := c
    cases op with
    | createAttestation slot root i => exact absurd rfl (hop slot root i)
    | _ => simp only [List.append_nil]
  rw [hstep]
  generalize step sch s.node c = q' at hcs hsrc ⊢
  cases hcs with
  | same kept _ =>
    refine hs.of_node hsrc (fun a _ => .inr (.inr (kept.getEpochBlockRoot _))) fun src _ h => ?_
    rw [justified_of_finality kept.finality]
    exact h
  | tally _ hadv =>
    refine hs.of_node hsrc (fun a _ => .inr (.inr ?_)) fun src _ h => ?_
    · exact roots_of_eq hadv.epochBlockRoots _
    · exact h.trans (justified_le hadv.justified)
  | @adopt j f _ hash _ _ heq =>
    obtain ⟨hroots, -, hj, -⟩ := adoptHeaderFinality_spec heq
    refine hs.of_node hsrc (fun a _ => .inr (.inr ?_)) fun src _ h => ?_
    · exact roots_of_eq hroots _
    · refine h.trans (justified_le ?_)
      split_ifs at hj with hlt
      · exact .inr (hj ▸ hlt)
      · exact .inl hj
  | @record epoch root hrec heq =>
    subst heq
    refine consistent_record hs (fun hfix => ?_) hsrc
    unfold Stable at hst
    rcases hrec with hrec | ⟨hrec, hnone⟩
    · rw [hrec] at hst
      exact hst hfix
    · rw [hrec] at hst
      exact hst hnone
  | @reorg roots vrf bounds hre heq =>
    unfold Stable at hst
    rw [hre] at hst
    subst heq
    refine hs.of_node hsrc (fun a ha => .inr (getEpochBlockRoot_reanchor (hst a ha) vrf))
      fun src _ h => ?_
    rw [justified_of_finality finality_reanchor]
    exact h
  | restore hop _ _ _ _ =>
    unfold Stable at hst
    rw [hop] at hst
    exact hst.elim

theorem consistent_step (hs : Consistent idx s) (hhon : Honest idx s c) (hst : Stable s c) :
    Consistent idx (s.step sch idx c) := by
  by_cases hop : ∃ slot root i, c.op = .createAttestation slot root i
  · obtain ⟨slot, root, i, hop⟩ := hop
    exact consistent_create hs hop hhon hst
  · exact consistent_other hs (fun slot root i h => hop ⟨slot, root, i, h⟩) hst

end Step

theorem consistent_start (idx : Int) (validators : List Validator) (cutover : Epoch)
    (genesis : Hash) : Consistent idx ⟨startQPOS validators cutover genesis, [], 0⟩ := by
  refine ⟨?_, ?_, ?_, ?_, fun src h => ?_, fun e src h => ?_, ?_, ?_⟩
  case refine_5 =>
    rcases h with ⟨a, ha, -⟩ | ⟨e, h⟩
    · exact absurd ha List.not_mem_nil
    · cases h
  case refine_6 =>
    cases h
  all_goals exact fun a ha => absurd ha List.not_mem_nil

/-! ## Nothing to report -/

/-- A vote of the list with some signature. -/
def SignedFrom (votes : List Attestation) (att : Attestation) : Prop :=
  ∃ a ∈ votes, ∃ signature, att = { a with signature := signature }

theorem conflictKind_of_compatible {a b : Attestation} (hab : Compatible a b)
    (hba : Compatible b a) (sig sig' : Bytes) :
    conflictKind { a with signature := sig } { b with signature := sig' } = none := by
  have hsource : a.source.epoch = b.source.epoch → a.source.root = b.source.root := by
    intro heq
    rcases UInt64.le_total a.target.epoch b.target.epoch with hle | hle
    · exact (hab.source hle).2 heq
    · exact ((hba.source hle).2 heq.symm).symm
  unfold conflictKind
  rw [if_neg fun h => h.2 (hsource h.1), if_neg fun h => h.2 (hab.target h.1), if_neg, if_neg]
  · exact fun h => UInt64.not_lt.mpr (hab.source (UInt64.le_of_lt h.2)).1 h.1
  · exact fun h => UInt64.not_lt.mpr (hba.source (UInt64.le_of_lt h.2)).1 h.1

/-- In every run in which, in the calls that change something, the validator
is honest and the chain stable, each vote has its source before its target,
and a node that has only votes of this list from the validator finds no double
and no surround vote among them. -/
theorem honest_votes {sch : SignatureScheme} {idx : Int} {validators : List Validator}
    {cutover : Epoch} {genesis : Hash} {s : Voter}
    (h : Reachable (Voter.step sch idx)
      (Guarded (Voter.step sch idx) fun s c => Honest idx s c ∧ Stable s c)
      ⟨startQPOS validators cutover genesis, [], 0⟩ s) :
    (∀ a ∈ s.votes, a.source.epoch < a.target.epoch) ∧
    ∀ (q : QPOS) (env : Env) (v : Validator) (att : Attestation), SignedFrom s.votes att →
      (∀ (slot : Slot) (existing : Attestation), (q.votesOf idx)[slot]? = some existing →
        existing.slot = slot ∧ SignedFrom s.votes existing) →
      q.checkDoubleVote env v att = none ∧ q.checkSurroundVote env att = none := by
  have hs : Consistent idx s := h.of_guarded.invariant (consistent_start idx validators cutover genesis)
    fun _ _ hs hok => consistent_step hs hok.1 hok.2
  refine ⟨fun a ha => (hs.form a ha).2, ?_⟩
  rintro q env v _ ⟨a, ha, sig, rfl⟩ hq
  have hidx := hs.index a ha
  constructor
  · unfold checkDoubleVote
    split
    · rfl
    next existing hex =>
      obtain ⟨hslot, b, hb, sig', rfl⟩ := hq _ _ (hidx ▸ hex)
      rw [(hs.pairs b hb a ha).slot hslot]
      exact if_neg fun hne => hne rfl
  · rw [checkSurroundVote_eq_none]
    intro slot existing hex
    obtain ⟨-, b, hb, sig', rfl⟩ := hq _ _ (hidx ▸ hex)
    exact conflictKind_of_compatible (hs.pairs a ha b hb) (hs.pairs b hb a ha) sig sig'

/-! ### Two votes of epoch 1

The root of epoch 1 is recorded and the first of three validators votes in
slots 33 and 34. In the second run a reorg from slot 30 on gives epoch 1
another root in between. -/

section Sample

def recordBoundary : Call := ⟨clockAt 33, .setEpochBlockRoot 1 (checkpointRoot 1)⟩

def createIn (slot : Slot) : Call := ⟨clockAt slot.toNat, .createAttestation slot (checkpointRoot 7) 0⟩

def newRoots : Fmap Slot Hash := (∅ : Fmap Slot Hash).insert 32 (checkpointRoot 2)

def newBounds : ReanchorBounds where
  ancestorSlot := 30
  ancestorKnown := true
  replacedHeadSlot := 33
  ancestorHash := checkpointRoot 3
  epochRoots := (∅ : Fmap Epoch Hash).insert 1 (checkpointRoot 2)

def replaceBoundary : Call := ⟨clockAt 34, .reanchorSlotRoots newRoots ∅ newBounds⟩

theorem newRoots_range : reanchorCleanRange newRoots newBounds = some (31, 33) := by
  have hmin : newRoots.minKey? = some 32 := by simp [newRoots, minKey?_insert]
  have hmax : newRoots.maxKey? = some 32 := by simp [newRoots, maxKey?_insert]
  unfold reanchorCleanRange
  rw [hmin, hmax]
  rfl

def voterFrom (calls : List Call) : Voter :=
  calls.foldl (Voter.step voterScheme 0) ⟨voterStart, [], 0⟩

/-- The unsigned vote of a slot of epoch 1. -/
def epochOneVote (slot : Slot) (target : UInt8) : Attestation where
  slot := slot
  beaconBlockRoot := checkpointRoot 7
  source := ⟨0, zeroHash⟩
  target := ⟨1, checkpointRoot target⟩
  validatorIndex := 0
  signature := []
  keyVersion := 0

/-- Without the reorg, the second vote is not reported to a node that has
stored the first one. -/
theorem honest_votes_twoSlots : (voterFrom [recordBoundary, createIn 33, createIn 34]).votes =
      [epochOneVote 33 1, epochOneVote 34 1] ∧
    (voterStart.store (epochOneVote 33 1)).checkDoubleVote (clockAt 34) (voter 1)
      (epochOneVote 34 1) = none ∧
    (voterStart.store (epochOneVote 33 1)).checkSurroundVote (clockAt 34) (epochOneVote 34 1) =
      none := by
  have hvotes : (voterFrom [recordBoundary, createIn 33, createIn 34]).votes =
      [epochOneVote 33 1, epochOneVote 34 1] := by decide +kernel
  have hrun : Reachable (Voter.step voterScheme 0) (fun s c => Honest 0 s c ∧ Stable s c)
      ⟨voterStart, [], 0⟩ (voterFrom [recordBoundary, createIn 33, createIn 34]) := by
    refine Reachable.init.foldl ⟨⟨trivial, fun _ => ⟨?_, ?_⟩⟩, ⟨⟨?_, ?_⟩, fun _ => .inl ?_⟩,
      ⟨⟨?_, ?_⟩, fun _ => .inl ?_⟩, trivial⟩
    · exact fun a ha => absurd ha List.not_mem_nil
    · exact fun heq => absurd heq (by decide +kernel)
    · decide +kernel
    · exact fun _ a ha => absurd ha List.not_mem_nil
    · decide +kernel
    · decide +kernel
    · decide +kernel
    · decide +kernel
  refine ⟨hvotes, (honest_votes hrun.guarded).2 _ _ _ _ ?_ fun slot existing hex => ?_⟩
  · rw [hvotes]
    exact ⟨epochOneVote 34 1, by simp, [], rfl⟩
  · rw [getElem?_votesOf_store] at hex
    split_ifs at hex with hk
    · cases hex
      rw [hvotes]
      exact ⟨hk.2, epochOneVote 33 1, by simp, [], rfl⟩
    · have hnone : (voterStart.votesOf 0) = ∅ := by decide +kernel
      simp [hnone] at hex

/-- With the reorg the second vote has another target, and the check reports
it. -/
theorem honest_votes_reorged :
    let s := voterFrom [recordBoundary, createIn 33, replaceBoundary, createIn 34]
    Reachable (Voter.step voterScheme 0) (Honest 0) ⟨voterStart, [], 0⟩ s ∧
      s.votes = [epochOneVote 33 1, epochOneVote 34 2] ∧
      (voterStart.store (epochOneVote 33 1)).checkSurroundVote (clockAt 34) (epochOneVote 34 2) =
        some (epochOneVote 33 1, .double) := by
  intro s
  have hnode : (voterFrom [recordBoundary, createIn 33, replaceBoundary]).node =
      let q := (voterFrom [recordBoundary, createIn 33]).node
      { q with
        slotBlockRoots := q.reanchoredSlots newRoots 31 33
        epochBlockRoots := q.reanchoredEpochs newBounds (firstReachedEpoch 31)
        epochVRFAccumulator := q.epochVRFAccumulator ∪ ∅ } := by
    show ((voterFrom [recordBoundary, createIn 33]).node.reanchorSlotRoots newRoots ∅ newBounds).2 = _
    unfold reanchorSlotRoots
    rw [newRoots_range]
    dsimp only
    rw [if_neg (by decide +kernel)]
  have hvotes : s.votes = [epochOneVote 33 1, epochOneVote 34 2] := by
    show _ ++ createdBy 0 (voterFrom [recordBoundary, createIn 33, replaceBoundary]).node
      (createIn 34) = _
    rw [hnode]
    decide +kernel
  refine ⟨Reachable.init.foldl ⟨trivial, ⟨?_, ?_⟩, trivial, ⟨?_, ?_⟩, trivial⟩, hvotes, ?_⟩
  · decide +kernel
  · exact fun _ a ha => absurd ha List.not_mem_nil
  · decide +kernel
  · decide +kernel
  · decide +kernel

end Sample

end Qau.Consensus
