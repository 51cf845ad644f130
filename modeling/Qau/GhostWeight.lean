import Qau.ForkTree
import Qau.Transition

/-!
# Weights of the fork choice

`ghostWeight` is the weight of a block from scratch: the stakes of the active
validators whose latest vote is for it or a descendant. The stored weights
are changed by the difference a vote makes, with the stake of the new vote
also for the old one, and only along blocks that are known at that moment.
`Careful` says where this is exact, `Invariant` that it was, and this module
that votes keep it so.
-/

namespace Qau.Ghost

open Function

open Forest

variable {b : Hash} {i n : Int} {l : Links}
  {l' : Links} {v : Option (Hash × Int)} {node' : BlockNode} {stake : Option Int} {st : Int}
  {h : Hash}

/-! ## Weights from scratch -/

abbrev Votes := Int → Option (Hash × Int)

variable {votes : Votes}

open Classical in
/-- What a vote adds to a block. -/
noncomputable def share (l : Links) (b : Hash) : Option (Hash × Int) → Int
  | none => 0
  | some (h, stake) => if Descends (parentOf l) h b then stake else 0

noncomputable def ghostWeight (l : Links) (votes : Votes) (b : Hash) : Int :=
  ∑ i ∈ Finset.Ico 0 maxValidators, share l b (votes i)

theorem share_of_descends (hd : Descends (parentOf l) h b) (stake : Int) :
    share l b (some (h, stake)) = stake := if_pos hd

theorem share_of_not_descends (hd : ¬ Descends (parentOf l) h b) (stake : Int) :
    share l b (some (h, stake)) = 0 := if_neg hd

theorem share_congr (hd : Descends (parentOf l) h b ↔ Descends (parentOf l') h b) (stake : Int) :
    share l b (some (h, stake)) = share l' b (some (h, stake)) := by
  by_cases h' : Descends (parentOf l') h b
  · rw [share_of_descends (hd.mpr h'), share_of_descends h']
  · rw [share_of_not_descends (fun h => h' (hd.mp h)), share_of_not_descends h']

theorem share_neg (l : Links) (b h : Hash) (stake : Int) :
    share l b (some (h, -stake)) = -share l b (some (h, stake)) := by
  by_cases hd : Descends (parentOf l) h b
  · rw [share_of_descends hd, share_of_descends hd]
  · rw [share_of_not_descends hd, share_of_not_descends hd, neg_zero]

/-- Votes for unknown blocks do not count for known ones. -/
theorem share_unknown (hb : (l b).isSome) (hh : l h = none) (stake : Int) :
    share l b (some (h, stake)) = 0 := by
  refine share_of_not_descends (fun hd => ?_) stake
  have hroot : parentOf l h = none := by simp [parentOf, hh]
  rw [descends_of_root hroot] at hd
  rw [← hd, hh] at hb
  cases hb

theorem share_nonneg (hv : ∀ e ∈ v, 0 < e.2) : 0 ≤ share l b v := by
  cases v with
  | none => exact le_rfl
  | some e =>
    obtain ⟨h, stake⟩ := e
    by_cases hd : Descends (parentOf l) h b
    · rw [share_of_descends hd]
      exact (hv _ rfl).le
    · rw [share_of_not_descends hd]

theorem ghostWeight_nonneg (hv : ∀ i, ∀ e ∈ votes i, 0 < e.2) (b : Hash) :
    0 ≤ ghostWeight l votes b :=
  Finset.sum_nonneg fun i _ => share_nonneg (hv i)

/-- The weight of a block is at least what one vote adds to it. -/
theorem share_le_ghostWeight (hv : ∀ i, ∀ e ∈ votes i, 0 < e.2)
    (hi : i ∈ Finset.Ico 0 maxValidators) (b : Hash) :
    share l b (votes i) ≤ ghostWeight l votes b :=
  Finset.single_le_sum (fun j _ => share_nonneg (hv j)) hi

theorem ghostWeight_update (hi : i ∈ Finset.Ico 0 maxValidators) (l : Links) (votes : Votes)
    (v : Option (Hash × Int)) (b : Hash) : ghostWeight l (update votes i v) b =
      ghostWeight l votes b - share l b (votes i) + share l b v := by
  unfold ghostWeight
  rw [← Finset.add_sum_erase _ _ hi, ← Finset.add_sum_erase _ (fun j => share l b (votes j)) hi]
  have hrest : ∑ j ∈ (Finset.Ico 0 maxValidators).erase i, share l b (update votes i v j) =
      ∑ j ∈ (Finset.Ico 0 maxValidators).erase i, share l b (votes j) :=
    Finset.sum_congr rfl fun j hj => by rw [update_of_ne (Finset.ne_of_mem_erase hj)]
  rw [update_self, hrest]
  ring

theorem ghostWeight_congr {votes' : Votes} {b' : Hash}
    (h : ∀ i, share l b (votes i) = share l' b' (votes' i)) :
    ghostWeight l votes b = ghostWeight l' votes' b' :=
  Finset.sum_congr rfl fun i _ => h i

/-! ## Runs -/

/-- The fork choice with the latest vote of each validator and its stake. -/
structure Run where
  fc : ForkChoice
  votes : Votes

def Run.start (genesisRoot : Hash) : Run := ⟨newForkChoice genesisRoot, fun _ => none⟩

def Run.step (s : Run) (c : Call) : Run where
  fc := (s.fc.call c).getD s.fc
  votes := match c with
    | .onAttestation i h stake =>
      if s.fc.acceptsVote i stake then update s.votes i (some (h, stake.getD 0)) else s.votes
    | _ => s.votes

/-- The votes that count. -/
def Run.active (s : Run) : Votes := fun i =>
  if s.fc.inactiveValidators.contains i then none else s.votes i

/-- `root` is found on the way up from a block. -/
def ForkChoice.reaches (fc : ForkChoice) (root : Hash) : Nat → Hash → Bool
  | 0, _ => false
  | fuel + 1, h => h = root || match parentOf (links fc.blocks) h with
    | none => false
    | some p => fc.reaches root fuel p

/-- Where the incremental update is exact. -/
def Careful (s : Run) (c : Call) : Prop :=
  match c with
  | .onBlock hash _ _ _ => links s.fc.blocks hash = none →
    -- no vote came before its block, and a pruned parent of the root stays away
    hash ≠ zeroArr 32 ∧ (∀ e ∈ s.fc.blocks.toList, e.2.parentHash ≠ hash) ∧
      ∀ e ∈ s.fc.latestMessages.toList, e.2 ≠ hash
  | .onAttestation i _ stake => ∀ v ∈ s.votes i, (links s.fc.blocks v.1).isSome →
    s.fc.acceptsVote i stake → stake = some v.2
  | .setValidatorInactive i => ∀ v ∈ s.votes i, links s.fc.blocks v.1 = none
  | .updateJustified root epoch => s.fc.justifiedEpoch < epoch → (links s.fc.blocks root).isSome
  | .updateFinalized root epoch => s.fc.finalizedEpoch < epoch →
    (links s.fc.blocks root).isSome ∧ s.fc.reaches root rounds s.fc.justifiedRoot
  | _ => True

instance (s : Run) (c : Call) : Decidable (Careful s c) := by
  unfold Careful
  split <;> infer_instance

structure Invariant (s : Run) : Prop where
  tree : Tree s.fc.blocks s.fc.root
  finalized : s.fc.root = s.fc.finalizedRoot
  justified : (links s.fc.blocks s.fc.justifiedRoot).isSome
  messages : ∀ i, s.fc.latestMessages[i]? = (s.votes i).map Prod.fst
  positive : ∀ i, ∀ v ∈ s.votes i, 0 < v.2
  range : ∀ i, ∀ v ∈ s.votes i, i ∈ Finset.Ico 0 maxValidators
  idle : ∀ i, s.fc.inactiveValidators.contains i → ∀ v ∈ s.votes i, links s.fc.blocks v.1 = none
  weights : ∀ b node, s.fc.blocks[b]? = some node →
    node.weight = ghostWeight (links s.fc.blocks) s.active b
  boost : ∀ w ∈ s.fc.proposerBoostWeight, 0 ≤ w

/-! ## Votes -/

section Raise

variable {blocks blocks' : Blocks} {delta : Int} {h root : Hash}

section
variable (hr : Raised delta blocks h blocks')
include hr

theorem Raised.links_eq : links blocks' = links blocks := by
  funext b
  by_cases hd : Descends (parentOf (links blocks)) h b
  · unfold links
    rw [hr.above b hd, Option.map_map]
    rfl
  · unfold links
    rw [hr.beside b hd]

theorem Raised.node (hn : blocks'[b]? = some node') : ∃ node, blocks[b]? = some node ∧
      node'.children = node.children ∧
      (0 ≤ node.weight + share (links blocks) b (some (h, delta)) →
        node'.weight = node.weight + share (links blocks) b (some (h, delta))) := by
  by_cases hd : Descends (parentOf (links blocks)) h b
  · rw [hr.above b hd] at hn
    obtain ⟨node, hnode, rfl⟩ := Option.map_eq_some_iff.mp hn
    refine ⟨node, hnode, rfl, fun hle => ?_⟩
    rw [share_of_descends hd] at hle ⊢
    exact if_neg (not_lt.mpr hle)
  · rw [hr.beside b hd] at hn
    refine ⟨node', hn, rfl, fun _ => ?_⟩
    rw [share_of_not_descends hd, add_zero]

theorem Raised.tree (ht : Tree blocks root) : Tree blocks' root := by
  have hlinks := hr.links_eq
  refine ⟨?_, ?_, ?_, ?_, ?_⟩
  · rw [← links_eq_none, hlinks, links_eq_none, ht.zero]
  · rw [hlinks]
    exact ht.known
  · rw [hlinks]
    exact ht.slots
  · intro b node' hn c
    obtain ⟨node, hnode, hchildren, -⟩ := hr.node hn
    rw [hlinks, hchildren]
    exact ht.children b node hnode c
  · rw [hlinks]
    exact ht.rooted

/-- Stored weights follow the function that the update adds to. -/
theorem Raised.weights {W : Hash → Int} (hw : ∀ b node, blocks[b]? = some node → node.weight = W b)
    (hn : blocks'[b]? = some node')
    (hle : (links blocks b).isSome → 0 ≤ W b + share (links blocks) b (some (h, delta))) :
    node'.weight = W b + share (links blocks) b (some (h, delta)) := by
  obtain ⟨node, hnode, -, hweight⟩ := hr.node hn
  rw [hw b node hnode] at hweight
  exact hweight (hle (by simp [links_of_some hnode]))

end

theorem updateWeight_spec (fc : ForkChoice) (ht : Tree fc.blocks root) (h : Hash) (delta : Int) :
    ∃ blocks', fc.updateWeight h delta = some { fc with blocks := blocks' } ∧
      Raised delta fc.blocks h blocks' := by
  have hslot := slotOf_lt (links fc.blocks) h
  obtain ⟨blocks', hclimb, hr⟩ := climb_spec (h := h) delta rounds ht.zero ht.slots (by decide)
    (fun _ => by unfold rounds; omega)
  exact ⟨blocks', by rw [ForkChoice.updateWeight, hclimb]; rfl, hr⟩

end Raise

variable {s : Run}

theorem acceptsVote_eq_true {fc : ForkChoice} (h : fc.acceptsVote i stake = true) :
    ∃ n, stake = some n ∧ 0 < n ∧
      i ∈ Finset.Ico 0 maxValidators ∧ fc.inactiveValidators.contains i = false := by
  unfold ForkChoice.acceptsVote at h
  cases stake with
  | none => cases h
  | some n =>
    simp only [Bool.and_eq_true, decide_eq_true_eq, Bool.not_eq_true'] at h
    obtain ⟨⟨⟨hn, hi⟩, hmax⟩, hactive⟩ := h
    exact ⟨n, rfl, hn, Finset.mem_Ico.mpr ⟨hi, hmax⟩, hactive⟩

theorem Invariant.active_positive (hi : Invariant s) : ∀ i, ∀ v ∈ s.active i, 0 < v.2 := by
  intro i v hv
  unfold Run.active at hv
  split_ifs at hv
  · cases hv
  · exact hi.positive i v hv

theorem active_update {fc' : ForkChoice} (hsame : fc'.inactiveValidators = s.fc.inactiveValidators)
    (hactive : s.fc.inactiveValidators.contains i = false) :
    Run.active ⟨fc', update s.votes i v⟩ = update s.active i v := by
  funext j
  by_cases hj : j = i
  · subst hj
    simp [Run.active, hsame, hactive]
  · simp [Run.active, hsame, update_of_ne hj]

/-- After the tree is reweighed for a vote, the run is as it should be. -/
theorem Invariant.vote (hi : Invariant s) {blocks' : Blocks} (hn : 0 < n)
    (hrange : i ∈ Finset.Ico 0 maxValidators) (hactive : s.fc.inactiveValidators.contains i = false)
    (ht : Tree blocks' s.fc.root) (hlinks : links blocks' = links s.fc.blocks)
    (hw : ∀ b node, blocks'[b]? = some node → node.weight =
      ghostWeight (links s.fc.blocks) s.active b - share (links s.fc.blocks) b (s.votes i) +
        share (links s.fc.blocks) b (some (h, n))) : Invariant ⟨{ s.fc with
      blocks := blocks'
      latestMessages := s.fc.latestMessages.insert i h }, update s.votes i (some (h, n))⟩ := by
  have hvotes : s.active i = s.votes i := by simp [Run.active, hactive]
  have hcases : ∀ j v, v ∈ update s.votes i (some (h, n)) j →
      (j = i ∧ v = (h, n)) ∨ (j ≠ i ∧ v ∈ s.votes j) := by
    intro j v hv
    by_cases hj : j = i
    · subst hj
      rw [update_self] at hv
      exact .inl ⟨rfl, (Option.some.inj hv).symm⟩
    · rw [update_of_ne hj] at hv
      exact .inr ⟨hj, hv⟩
  refine ⟨ht, hi.finalized, ?_, ?_, ?_, ?_, ?_, ?_, hi.boost⟩
  · show (links blocks' _).isSome
    rw [hlinks]
    exact hi.justified
  · intro j
    by_cases hj : i = j
    · subst hj
      simp
    · simp [Fmap.getElem?_insert_ne _ _ hj, update_of_ne (Ne.symm hj), hi.messages j]
  · intro j v hv
    rcases hcases j v hv with ⟨rfl, rfl⟩ | ⟨-, hv⟩
    · exact hn
    · exact hi.positive j v hv
  · intro j v hv
    rcases hcases j v hv with ⟨rfl, rfl⟩ | ⟨-, hv⟩
    · exact hrange
    · exact hi.range j v hv
  · intro j hj v hv
    show links blocks' _ = none
    rw [hlinks]
    rcases hcases j v hv with ⟨rfl, rfl⟩ | ⟨-, hv⟩
    · exact absurd hj (by simp [hactive])
    · exact hi.idle j hj v hv
  · intro b node hnode
    show node.weight = ghostWeight (links blocks') _ b
    rw [hlinks, active_update (by rfl) hactive, ghostWeight_update hrange, hvotes]
    exact hw b node hnode

/-- The weights without the vote of one validator. -/
def WithoutVote (s : Run) (i : Int) (blocks : Blocks) : Prop :=
  ∀ b node, blocks[b]? = some node → node.weight =
    ghostWeight (links s.fc.blocks) s.active b - share (links s.fc.blocks) b (s.votes i)

theorem Invariant.withoutVote_nonneg (hi : Invariant s) (hrange : i ∈ Finset.Ico 0 maxValidators)
    (hactive : s.fc.inactiveValidators.contains i = false) (b : Hash) :
    0 ≤ ghostWeight (links s.fc.blocks) s.active b - share (links s.fc.blocks) b (s.votes i) := by
  have hvotes : s.active i = s.votes i := by simp [Run.active, hactive]
  rw [← hvotes]
  exact sub_nonneg.mpr (share_le_ghostWeight hi.active_positive hrange b)

theorem Invariant.addVote (hi : Invariant s) {blocks : Blocks} (hn : 0 < n)
    (hrange : i ∈ Finset.Ico 0 maxValidators) (hactive : s.fc.inactiveValidators.contains i = false)
    (ht : Tree blocks s.fc.root) (hlinks : links blocks = links s.fc.blocks)
    (hw : WithoutVote s i blocks) : ∃ fc', ForkChoice.updateWeight { s.fc with
        blocks := blocks
        latestMessages := s.fc.latestMessages.insert i h } h n = some fc' ∧
      Invariant ⟨fc', update s.votes i (some (h, n))⟩ := by
  obtain ⟨blocks', hup, hr⟩ := updateWeight_spec { s.fc with
    blocks := blocks
    latestMessages := s.fc.latestMessages.insert i h } ht h n
  refine ⟨_, hup, hi.vote hn hrange hactive (hr.tree ht) (hr.links_eq.trans hlinks) ?_⟩
  intro b node hnode
  rw [hr.weights hw hnode fun _ => ?_, hlinks]
  exact add_nonneg (hi.withoutVote_nonneg hrange hactive b) (share_nonneg (by simp [hn]))

theorem Invariant.removeVote (hi : Invariant s) {old : Hash}
    (hrange : i ∈ Finset.Ico 0 maxValidators) (hactive : s.fc.inactiveValidators.contains i = false)
    (hold : s.votes i = some (old, st)) (hst : (links s.fc.blocks old).isSome → n = st) :
    ∃ blocks, ForkChoice.updateWeight { s.fc with
        latestMessages := s.fc.latestMessages.insert i h } old (-n) =
          some { s.fc with blocks := blocks, latestMessages := s.fc.latestMessages.insert i h } ∧
      Tree blocks s.fc.root ∧ links blocks = links s.fc.blocks ∧ WithoutVote s i blocks := by
  obtain ⟨blocks, hup, hr⟩ := updateWeight_spec { s.fc with
    latestMessages := s.fc.latestMessages.insert i h } hi.tree old (-n)
  refine ⟨blocks, hup, hr.tree hi.tree, hr.links_eq, fun b node hnode => ?_⟩
  have hshare : (links s.fc.blocks b).isSome → share (links s.fc.blocks) b (some (old, -n)) =
      -share (links s.fc.blocks) b (s.votes i) := by
    intro hb
    cases hknown : links s.fc.blocks old with
    | some e => rw [share_neg, hold, hst (by simp [hknown])]
    | none => rw [hold, share_unknown hb hknown, share_unknown hb hknown, neg_zero]
  have hb : (links s.fc.blocks b).isSome := by
    rw [← hr.links_eq, links_of_some hnode]
    rfl
  rw [hr.weights hi.weights hnode fun _ => ?_, hshare hb]
  · rfl
  · rw [hshare hb]
    exact hi.withoutVote_nonneg hrange hactive b

/-- A vote for the same block again, with the stake it had or for a block
that is not known. -/
theorem Invariant.repeatVote (hi : Invariant s) (hn : 0 < n)
    (hrange : i ∈ Finset.Ico 0 maxValidators) (hactive : s.fc.inactiveValidators.contains i = false)
    (hold : s.votes i = some (h, st)) (hst : (links s.fc.blocks h).isSome → n = st) :
    Invariant ⟨s.fc, update s.votes i (some (h, n))⟩ := by
  have hvote := hi.vote (h := h) hn hrange hactive hi.tree rfl fun b node hnode => by
    have hb : (links s.fc.blocks b).isSome := by simp [links_of_some hnode]
    rw [hi.weights b node hnode, hold]
    cases hknown : links s.fc.blocks h with
    | some e => rw [hst (by simp [hknown]), sub_add_cancel]
    | none => rw [share_unknown hb hknown, share_unknown hb hknown, sub_zero, add_zero]
  rwa [Fmap.insert_of_getElem?_eq_some (by rw [hi.messages i, hold]; rfl)] at hvote

theorem invariant_onAttestation (hi : Invariant s) (hc : Careful s (.onAttestation i h stake)) :
    ∃ fc', s.fc.onAttestation i h stake = some fc' ∧
      Invariant ⟨fc', (s.step (.onAttestation i h stake)).votes⟩ := by
  unfold ForkChoice.onAttestation
  by_cases haccept : s.fc.acceptsVote i stake = true
  swap
  · exact ⟨s.fc, by simp [haccept], by simpa [Run.step, haccept] using hi⟩
  obtain ⟨n, rfl, hn, hrange, hactive⟩ := acceptsVote_eq_true haccept
  have hst : ∀ v ∈ s.votes i, (links s.fc.blocks v.1).isSome → n = v.2 := fun v hv hknown =>
    Option.some.inj (hc v hv hknown haccept)
  simp only [Run.step, haccept, Bool.not_true, Bool.false_eq_true, if_false, if_true,
    Option.getD_some, hi.messages i]
  cases hv : s.votes i with
  | none =>
    refine hi.addVote hn hrange hactive hi.tree rfl fun b node hnode => ?_
    rw [hv, hi.weights b node hnode]
    exact (sub_zero _).symm
  | some v =>
    obtain ⟨old, st⟩ := v
    simp only [Option.map_some]
    split_ifs with heq
    · subst heq
      exact ⟨s.fc, rfl, hi.repeatVote hn hrange hactive hv (hst _ hv)⟩
    · obtain ⟨blocks, hremove, ht, hlinks, hw⟩ := hi.removeVote hrange hactive hv (hst _ hv)
      rw [hremove]
      exact hi.addVote hn hrange hactive ht hlinks hw

end Qau.Ghost
