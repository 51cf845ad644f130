import Qau.GhostTree

/-!
# LMD-GHOST weights and head

In every run of careful calls the stored weights are the ones from scratch,
the head is the end of the walk by heaviest children and descends from the
finalized root, and both depend on nothing but the blocks and the votes
(`lmd_ghost`). In `lmd_ghost_reduced` the only vote is for one block and the
head is its sibling: the vote came with a smaller stake than the one before.
-/

namespace Qau.Ghost

open Function Run

open Forest

variable {s : Run}

/-! ## Activity and boost -/

/-- Which validators are inactive does not matter for those whose vote is for
an unknown block. -/
theorem Invariant.setInactive (hi : Invariant s) (inactive : Fmap Int Unit)
    (hidle : ∀ i, inactive.contains i → ∀ v ∈ s.votes i, links s.fc.blocks v.1 = none) :
    Invariant ⟨{ s.fc with inactiveValidators := inactive }, s.votes⟩ := by
  refine ⟨hi.tree, hi.finalized, hi.justified, hi.messages, hi.positive, hi.range, hidle, ?_, hi.boost⟩
  intro b node hn
  have hb : (links s.fc.blocks b).isSome := by simp [links_of_some hn]
  have hzero : ∀ i, (∀ v ∈ s.votes i, links s.fc.blocks v.1 = none) →
      share (links s.fc.blocks) b (s.votes i) = 0 := by
    intro i hunknown
    cases hv : s.votes i with
    | none => rfl
    | some v => exact share_unknown hb (hunknown v hv) v.2
  refine (hi.weights b node hn).trans (ghostWeight_congr fun i => ?_)
  simp only [active]
  split_ifs with hold hnew hnew
  · rfl
  · exact (hzero i (hi.idle i hold)).symm
  · exact hzero i (hidle i hnew)
  · rfl

theorem Invariant.setBoost (hi : Invariant s) (hash : Hash) (slot : UInt64) {weight : Option Int}
    (hw : ∀ w ∈ weight, 0 ≤ w) : Invariant ⟨{ s.fc with
      proposerBoostRoot := hash, proposerBoostSlot := slot, proposerBoostWeight := weight },
      s.votes⟩ :=
  ⟨hi.tree, hi.finalized, hi.justified, hi.messages, hi.positive, hi.range, hi.idle, hi.weights, hw⟩

theorem invariant_call (hi : Invariant s) (c : Call) (hc : Careful s c) :
    ∃ fc', s.fc.call c = some fc' ∧ Invariant ⟨fc', (s.step c).votes⟩ := by
  cases c with
  | onBlock hash p slot height =>
    cases h : s.fc.onBlock hash p slot height with
    | error e => exact ⟨s.fc, by rw [ForkChoice.call, h], hi⟩
    | ok fc' =>
      have hnext := invariant_onBlock hi hc h
      exact ⟨fc', by rw [ForkChoice.call, h], hnext⟩
  | onAttestation i h stake => exact invariant_onAttestation hi hc
  | setValidatorInactive i =>
    refine ⟨_, rfl, hi.setInactive _ fun j hj v hv => ?_⟩
    rw [Std.ExtTreeMap.contains_insert] at hj
    rcases Bool.or_eq_true_iff.mp hj with heq | hold
    · rw [Std.LawfulEqOrd.eq_of_compare (beq_iff_eq.mp heq)] at hc
      exact hc v hv
    · exact hi.idle j hold v hv
  | setValidatorActive i =>
    refine ⟨_, rfl, hi.setInactive _ fun j hj v hv => ?_⟩
    rw [Std.ExtTreeMap.contains_erase] at hj
    exact hi.idle j (Bool.and_eq_true_iff.mp hj).2 v hv
  | setProposerBoost hash slot => exact ⟨_, rfl, hi.setBoost hash slot (by simp)⟩
  | setProposerBoostWithWeight hash slot total =>
    refine ⟨_, rfl, hi.setBoost hash slot fun w hw => ?_⟩
    cases total with
    | none => cases hw
    | some total =>
      dsimp only at hw
      split_ifs at hw with hpos
      · cases hw
      · cases hw
        exact Int.ediv_nonneg (mul_nonneg (not_le.mp hpos).le (by decide)) (by decide)
  | updateJustified root epoch => exact ⟨_, rfl, invariant_updateJustified hi hc⟩
  | updateFinalized root epoch => exact invariant_updateFinalized hi hc

theorem invariant_step (s : Run) (c : Call) (hi : Invariant s) (hc : Careful s c) :
    Invariant (s.step c) := by
  obtain ⟨fc', hcall, hi'⟩ := invariant_call hi c hc
  have hfc : (s.step c).fc = fc' := by
    show (s.fc.call c).getD s.fc = fc'
    rw [hcall, Option.getD_some]
  have heta : s.step c = ⟨(s.step c).fc, (s.step c).votes⟩ := rfl
  rw [heta, hfc]
  exact hi'

theorem links_newForkChoice (genesisRoot h : Hash) : links (newForkChoice genesisRoot).blocks h =
      if genesisRoot = h then some (zeroArr 32, 0) else none := by
  unfold links newForkChoice
  rw [Fmap.getElem?_insert]
  split_ifs
  · rfl
  · simp

theorem invariant_start {genesisRoot : Hash} (hg : genesisRoot ≠ zeroArr 32) :
    Invariant (start genesisRoot) := by
  have hparent : ∀ c, parentOf (links (newForkChoice genesisRoot).blocks) c = none := by
    intro c
    simp only [parentOf, links_newForkChoice]
    split_ifs <;> simp [hg]
  have hself : links (newForkChoice genesisRoot).blocks genesisRoot = some (zeroArr 32, 0) := by
    rw [links_newForkChoice, if_pos rfl]
  have hnode : ∀ h node, (newForkChoice genesisRoot).blocks[h]? = some node →
      genesisRoot = h ∧ node = ⟨zeroArr 32, 0, 0, 0, []⟩ := by
    intro h node hn
    rw [newForkChoice, Fmap.getElem?_insert] at hn
    split_ifs at hn with hgh
    · exact ⟨hgh, (Option.some.inj hn).symm⟩
    · simp at hn
  refine ⟨⟨?_, ?_, ?_, ?_, ?_⟩, rfl, ?_, fun i => ?_, ?_, ?_, ?_, ?_, ?_⟩
  · rw [← links_eq_none, start, links_newForkChoice]
    simp [hg]
  · rw [start]
    exact hself ▸ rfl
  · intro c p h
    rw [start, hparent c] at h
    cases h
  · intro h node hn c
    obtain ⟨-, rfl⟩ := hnode h node hn
    rw [start, hparent c]
    simp
  · intro h hh
    rw [start, links_newForkChoice] at hh
    split_ifs at hh with hgh
    · exact hgh ▸ .refl _ _
    · cases hh
  · rw [start]
    exact hself ▸ rfl
  · simp [start, newForkChoice]
  · simp [start]
  · simp [start]
  · simp [start]
  · intro b node hn
    obtain ⟨-, rfl⟩ := hnode b node hn
    simp [ghostWeight, active, start, share]
  · simp [start, newForkChoice]

/-! ## The head -/

/-- The score of a block from scratch. -/
noncomputable def Run.score (s : Run) (h : Hash) : Int :=
  ghostWeight (links s.fc.blocks) s.active h +
    match links s.fc.blocks h with
    | none => 0
    | some e => s.fc.boost h e.2

theorem Invariant.score_eq (hi : Invariant s) {h : Hash} (hh : (links s.fc.blocks h).isSome) :
    s.fc.score h = s.score h := by
  obtain ⟨e, he⟩ := Option.isSome_iff_exists.mp hh
  obtain ⟨node, hn, rfl⟩ := links_eq_some.mp he
  rw [ForkChoice.score, hn, Run.score, he, ← hi.weights h node hn]

theorem Invariant.score_nonneg (hi : Invariant s) (h : Hash) : 0 ≤ s.fc.score h := by
  unfold ForkChoice.score
  cases hn : s.fc.blocks[h]? with
  | none => exact le_rfl
  | some node =>
    refine add_nonneg ?_ ?_
    · rw [hi.weights h node hn]
      exact ghostWeight_nonneg hi.active_positive h
    · unfold ForkChoice.boost
      split_ifs
      · cases hw : s.fc.proposerBoostWeight with
        | none => exact le_rfl
        | some w => exact hi.boost w hw
      · exact le_rfl

theorem Invariant.getHead_spec (hi : Invariant s) : ∃ head, s.fc.getHead = some head ∧
    IsHead (parentOf (links s.fc.blocks)) s.score s.fc.justifiedRoot head := by
  obtain ⟨e, he⟩ := Option.isSome_iff_exists.mp hi.justified
  obtain ⟨node, hn, -⟩ := links_eq_some.mp he
  obtain ⟨head, hfollow, hhead⟩ := follow_spec hi.tree hi.score_nonneg rounds (by decide)
    hi.justified (by simp [rounds])
  refine ⟨head, by rw [ForkChoice.getHead, hn]; exact hfollow, hhead.congr fun c p hc => ?_⟩
  obtain ⟨_, hl, -⟩ := parentOf_eq_some.mp hc
  exact hi.score_eq (by simp [hl])

theorem Invariant.head_descends (hi : Invariant s) {head : Hash}
    (hh : IsHead (parentOf (links s.fc.blocks)) s.score s.fc.justifiedRoot head) :
    Descends (parentOf (links s.fc.blocks)) head s.fc.finalizedRoot :=
  hh.descends.trans (hi.finalized ▸ hi.tree.rooted _ hi.justified)

/-- The same blocks, votes that count, justified root and boost. -/
structure SameView (s s' : Run) : Prop where
  links : links s.fc.blocks = links s'.fc.blocks
  votes : s.active = s'.active
  justified : s.fc.justifiedRoot = s'.fc.justifiedRoot
  boost : ∀ h slot, s.fc.boost h slot = s'.fc.boost h slot

theorem SameView.score {s s' : Run} (h : SameView s s') : s.score = s'.score := by
  funext b
  simp only [Run.score, h.links, h.votes, h.boost]

/-- In every run, from a genesis root that is not zero, whose effective calls
are careful: every careful call returns; the stored weights are the weights
from scratch; the head is the end of the walk from the justified root by
heaviest children, and descends from the finalized root; and any other such
run with the same blocks and votes has the same head. -/
theorem lmd_ghost {genesisRoot : Hash} (hg : genesisRoot ≠ zeroArr 32) {s : Run}
    (h : Reachable step (Guarded step Careful) (start genesisRoot) s) :
    (∀ c, Careful s c → (s.fc.call c).isSome) ∧
    (∀ b node, s.fc.blocks[b]? = some node →
      node.weight = ghostWeight (links s.fc.blocks) s.active b) ∧
    (∃ head, s.fc.getHead = some head ∧
      IsHead (parentOf (links s.fc.blocks)) s.score s.fc.justifiedRoot head ∧
      Descends (parentOf (links s.fc.blocks)) head s.fc.finalizedRoot) ∧
    ∀ (genesisRoot' : Hash) (s' : Run), genesisRoot' ≠ zeroArr 32 →
      Reachable step (Guarded step Careful) (start genesisRoot') s' → SameView s s' →
        s.fc.getHead = s'.fc.getHead := by
  have hi : Invariant s := h.of_guarded.invariant (invariant_start hg) invariant_step
  obtain ⟨head, hget, hhead⟩ := hi.getHead_spec
  refine ⟨fun c hc => ?_, hi.weights, ⟨head, hget, hhead, hi.head_descends hhead⟩, ?_⟩
  · obtain ⟨fc', hcall, -⟩ := invariant_call hi c hc
    rw [hcall]
    rfl
  · intro genesisRoot' s' hg' h' hsame
    have hi' : Invariant s' := h'.of_guarded.invariant (invariant_start hg') invariant_step
    obtain ⟨head', hget', hhead'⟩ := hi'.getHead_spec
    rw [← hsame.score, ← hsame.links, ← hsame.justified] at hhead'
    rw [hget, hget', hhead.unique hhead']

/-! ## Two runs -/

/-- Two blocks on the genesis, and a vote for each; the heavier one is
justified and finalized. -/
def settledRun : List Call :=
  [.onBlock (hashOf 2) (hashOf 1) 1 1, .onBlock (hashOf 3) (hashOf 1) 1 1,
    .onAttestation 0 (hashOf 2) (some 10), .onAttestation 1 (hashOf 3) (some 20),
    .updateJustified (hashOf 3) 1, .updateFinalized (hashOf 3) 1, .onBlock (hashOf 4) (hashOf 3) 2 2]

theorem lmd_ghost_settled : Allowed step Careful (start (hashOf 1)) settledRun ∧
      ∃ node, (settledRun.foldl step (start (hashOf 1))).fc.blocks[hashOf 3]? = some node ∧
        node.weight = 20 ∧
        20 = ghostWeight (links (settledRun.foldl step (start (hashOf 1))).fc.blocks)
          (settledRun.foldl step (start (hashOf 1))).active (hashOf 3) := by
  have hallowed : Allowed step Careful (start (hashOf 1)) settledRun := by decide +kernel
  have hnode : (settledRun.foldl step (start (hashOf 1))).fc.blocks[hashOf 3]? =
      some ⟨hashOf 1, 1, 1, 20, [hashOf 4]⟩ := by decide +kernel
  have hweights := (lmd_ghost (by decide +kernel) (Reachable.init.foldl hallowed).guarded).2.1
  exact ⟨hallowed, _, hnode, rfl, hweights _ _ hnode⟩

/-- A validator votes for one block with stake 10 and then for its sibling
with stake 4. -/
def reducedRun : List Call :=
  [.onBlock (hashOf 2) (hashOf 1) 1 1, .onBlock (hashOf 3) (hashOf 1) 1 1,
    .onAttestation 0 (hashOf 2) (some 10), .onAttestation 0 (hashOf 3) (some 4)]

theorem votes_onAttestation {i n : Int} {h : Hash} (ha : s.fc.acceptsVote i (some n) = true) :
    (s.step (.onAttestation i h (some n))).votes = update s.votes i (some (h, n)) := by
  simp [step, ha]

theorem reducedRun_votes : (reducedRun.foldl step (start (hashOf 1))).votes =
    update (fun _ => none : Votes) 0 (some (hashOf 3, 4)) := by
  refine (votes_onAttestation (by decide +kernel)).trans ?_
  rw [votes_onAttestation (by decide +kernel), update_idem]
  rfl

/-- The block without votes keeps weight 6 and is the head. -/
theorem lmd_ghost_reduced :
    (∃ node, (reducedRun.foldl step (start (hashOf 1))).fc.blocks[hashOf 2]? = some node ∧
      node.weight = 6) ∧
    ghostWeight (links (reducedRun.foldl step (start (hashOf 1))).fc.blocks)
      (reducedRun.foldl step (start (hashOf 1))).active (hashOf 2) = 0 ∧
    (reducedRun.foldl step (start (hashOf 1))).fc.getHead = some (hashOf 2) := by
  refine ⟨⟨⟨hashOf 1, 1, 1, 6, []⟩, by decide +kernel, rfl⟩, ?_, by decide +kernel⟩
  have hparent : parentOf (links (reducedRun.foldl step (start (hashOf 1))).fc.blocks)
      (hashOf 3) = some (hashOf 1) := by decide +kernel
  have hroot : parentOf (links (reducedRun.foldl step (start (hashOf 1))).fc.blocks)
      (hashOf 1) = none := by decide +kernel
  have hapart : ¬ Descends (parentOf (links
      (reducedRun.foldl step (start (hashOf 1))).fc.blocks)) (hashOf 3) (hashOf 2) := by
    intro hd
    rcases descends_iff_parent.mp hd with heq | ⟨p, hp, hd⟩
    · exact absurd heq (by decide)
    · rw [hparent] at hp
      obtain rfl := Option.some.inj hp
      exact absurd ((descends_of_root hroot).mp hd) (by decide)
  refine Finset.sum_eq_zero fun i _ => ?_
  rw [active, reducedRun_votes]
  split_ifs
  · rfl
  · by_cases hi : i = 0
    · rw [hi, update_self]
      exact share_of_not_descends hapart 4
    · rw [update_of_ne hi]
      rfl

end Qau.Ghost
