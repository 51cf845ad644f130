import Qau.VotingManager

/-!
# What the tally of a vote does

What the detector forgets when it is full, and that ballots of distinct
validators weigh at most the total stake.
-/

namespace Qau.Voting

open Std.ExtTreeMap VotingManager DoubleSignDetector

open Consensus (Vote SlashingEvidence)
open Validators (ValidatorManager ValidatorInfo)

variable {keepAbove : UInt64} {v w : Vote} {heights : List UInt64}

/-! ## Sorted lists -/

/-- What comes after everything with `P` survives dropping as many entries as
have `P`. -/
theorem mem_drop_of_sorted {α : Type} {le : α → α → Prop} {P : α → Bool} {l : List α} {v : α}
    {n : Nat} (hs : l.Pairwise le) (hv : v ∈ l) (hP : P v = false) (hup : ∀ w, le v w → P w = false)
    (hn : n ≤ (l.filter P).length) : v ∈ l.drop n := by
  induction l generalizing n with
  | nil => cases hv
  | cons x l ih =>
    obtain ⟨hx, hs⟩ := List.pairwise_cons.mp hs
    cases n with
    | zero => exact hv
    | succ n =>
      rcases List.mem_cons.mp hv with rfl | hv
      · have hnone : (v :: l).filter P = [] := by
          rw [List.filter_eq_nil_iff]
          intro w hw
          rcases List.mem_cons.mp hw with rfl | hw
          · simp [hP]
          · simp [hup w (hx w hw)]
        rw [hnone] at hn
        simp at hn
      · refine ih hs hv ?_
        rw [List.filter_cons] at hn
        split_ifs at hn
        · simpa using hn
        · omega

/-! ## Stakes -/

/-- The stake with which a validator counts. -/
def activeStake (validators : Fmap Address ValidatorInfo) (addr : Address) : Int :=
  match validators[addr]? with
  | none => 0
  | some v => if v.active then v.stake else 0

def NonnegStakes (validators : Fmap Address ValidatorInfo) : Prop :=
  ∀ (addr : Address) (v : ValidatorInfo), validators[addr]? = some v → 0 ≤ v.stake

section Stakes

variable {validators : Fmap Address ValidatorInfo}

theorem activeStake_nonneg (h : NonnegStakes validators) (addr : Address) :
    0 ≤ activeStake validators addr := by
  unfold activeStake
  cases hv : validators[addr]? with
  | none => exact le_rfl
  | some v =>
    dsimp only
    split_ifs
    · exact h addr v hv
    · exact le_rfl

theorem totalStake_eq_sum (validators : Fmap Address ValidatorInfo) :
    totalStake validators = ∑ a ∈ validators.keys.toFinset, activeStake validators a := by
  rw [List.sum_toFinset _ nodup_keys, ← map_fst_toList_eq_keys,
    List.map_map, totalStake]
  refine congrArg List.sum (List.map_congr_left fun e he => ?_)
  have hv := mem_toList_iff_getElem?_eq_some.mp he
  simp [activeStake, hv]

theorem totalStake_nonneg (h : NonnegStakes validators) : 0 ≤ totalStake validators := by
  rw [totalStake_eq_sum]
  exact Finset.sum_nonneg fun a _ => activeStake_nonneg h a

theorem sum_le_totalStake (h : NonnegStakes validators) {l : List (Address × Int)}
    (hnd : (l.map Prod.fst).Nodup) (hle : ∀ e ∈ l, e.2 ≤ activeStake validators e.1) :
    (l.map Prod.snd).sum ≤ totalStake validators := by
  have hzero : ∀ a ∉ validators.keys.toFinset, activeStake validators a = 0 := by
    intro a ha
    have hnone : validators[a]? = none := by
      rw [List.mem_toFinset, mem_keys] at ha
      exact getElem?_eq_none ha
    simp [activeStake, hnone]
  calc (l.map Prod.snd).sum
      ≤ (l.map fun e => activeStake validators e.1).sum := List.sum_le_sum hle
    _ = ∑ a ∈ (l.map Prod.fst).toFinset, activeStake validators a := by
        rw [List.sum_toFinset _ hnd, List.map_map]
        rfl
    _ = ∑ a ∈ (l.map Prod.fst).toFinset ∩ validators.keys.toFinset, activeStake validators a := by
        refine (Finset.sum_subset Finset.inter_subset_left fun a ha hna => hzero a fun hk => ?_).symm
        exact hna (Finset.mem_inter.mpr ⟨ha, hk⟩)
    _ ≤ ∑ a ∈ validators.keys.toFinset, activeStake validators a :=
        Finset.sum_le_sum_of_subset_of_nonneg Finset.inter_subset_right fun a _ _ =>
          activeStake_nonneg h a
    _ = totalStake validators := (totalStake_eq_sum validators).symm

end Stakes

theorem two_mul_le_quorumThreshold (total : Int) : 2 * total ≤ 3 * quorumThreshold total := by
  simp only [quorumThreshold, quorumThresholdNumerator, quorumThresholdDenominator]
  split_ifs <;> omega

/-! ## Vote sets by key -/

section Sets

variable {vm : VotingManager} {h h' : UInt64} {r r' : UInt32} {b b' : Hash} {vs : VoteSet}

theorem getSet_putSet : (vm.putSet h r b vs).getSet h' r' b' =
    if h = h' ∧ r = r' ∧ b = b' then some vs else vm.getSet h' r' b' := by
  unfold getSet putSet
  simp only [getD_eq_getD_getElem?]
  by_cases hh : h = h'
  · subst hh
    simp only [Fmap.getElem?_insert_self, Option.bind_some]
    by_cases hr : r = r'
    · subst hr
      simp only [Fmap.getElem?_insert_self, Option.bind_some, Fmap.getElem?_insert, true_and]
      split_ifs
      · rfl
      · cases vm.voteSets[h]? with
        | none => simp
        | some rounds => cases hrounds : rounds[r]? <;> simp [hrounds]
    · rw [Fmap.getElem?_insert_ne _ _ hr]
      cases vm.voteSets[h]? <;> simp [hr]
  · simp [Fmap.getElem?_insert_ne _ _ hh, hh]

theorem getSet_pruneOldVotes : (vm.pruneOldVotes keepAbove).getSet h r b =
    if h < keepAbove then none else vm.getSet h r b := by
  unfold getSet pruneOldVotes
  rw [getElem?_filter']
  split_ifs with hk <;> cases vm.voteSets[h]? <;> simp [Option.filter, hk]

theorem mem_keys_of_getSet (hs : vm.getSet h r b = some vs) : h ∈ vm.voteSets.keys := by
  unfold getSet at hs
  obtain ⟨rounds, hr, -⟩ := Option.bind_eq_some_iff.mp hs
  rw [mem_keys, ← isSome_getElem?_iff_mem, hr]
  rfl

end Sets

/-! ## The detector -/

/-- One vote for each key, and a true count. -/
structure WellKept (d : DoubleSignDetector) : Prop where
  keys : d.voteHistory.Pairwise fun v w => sameKey v w = false
  count : d.voteCount = d.voteHistory.length

theorem sameKey_comm (v w : Vote) : sameKey v w = sameKey w v := by
  simp only [sameKey, eq_comm]

theorem sameKey_symm (h : sameKey v w = false) : sameKey w v = false := by
  rwa [sameKey_comm]

instance : Std.Symm fun v w : Vote => sameKey v w = false := ⟨fun _ _ => sameKey_symm⟩

theorem sameKey_iff : sameKey v w = true ↔
    v.validatorAddr = w.validatorAddr ∧ v.height = w.height ∧ v.round = w.round := by
  simp [sameKey, and_assoc]

theorem older_trans (u v w : Vote) (huv : older u v = true) (hvw : older v w = true) :
    older u w = true := by
  simp only [older] at *
  grind

theorem older_total (v w : Vote) : (older v w || older w v) = true := by
  simp only [older]
  grind

section Detector

variable {d : DoubleSignDetector} {vote : Vote}

theorem WellKept.find? (hd : WellKept d) (hv : v ∈ d.voteHistory) (hkey : sameKey w v = true) :
    d.voteHistory.find? (sameKey w) = some v := by
  cases hfind : d.voteHistory.find? (sameKey w) with
  | none => exact absurd hkey (List.find?_eq_none.mp hfind v hv)
  | some x =>
    have hx := List.mem_of_find?_eq_some hfind
    have hwx := List.find?_some hfind
    by_contra hne
    have hapart := hd.keys.forall hx hv fun heq => hne (by rw [heq])
    rw [sameKey_iff] at hkey hwx
    have hxv : sameKey x v = true :=
      sameKey_iff.mpr ⟨hwx.1.symm.trans hkey.1, hwx.2.1.symm.trans hkey.2.1,
        hwx.2.2.symm.trans hkey.2.2⟩
    rw [hapart] at hxv
    cases hxv

/-- The entries below all heights in use. -/
def spare (heights : List UInt64) (history : List Vote) : List Vote :=
  history.filter fun v => heights.all fun h => v.height < h

/-- What becomes of the bookkeeping when entries leave: nothing new comes in,
and what is in use stays. -/
structure Forgets (d : DoubleSignDetector) (heights : List UInt64) (d' : DoubleSignDetector) : Prop where
  kept : WellKept d'
  old : ∀ v ∈ d'.voteHistory, v ∈ d.voteHistory
  used : ∀ v ∈ d.voteHistory, v.height ∈ heights → v ∈ d'.voteHistory
  evidence : d'.evidence = d.evidence

theorem Forgets.refl (hd : WellKept d) (heights : List UInt64) : Forgets d heights d :=
  ⟨hd, fun _ h => h, fun _ h _ => h, rfl⟩

theorem pruneOldestLocked_forgets (hd : WellKept d) (order : RangeOrder Vote) (n : Int)
    (hspare : n ≤ (spare heights d.voteHistory).length) :
    Forgets d heights (d.pruneOldestLocked order n) := by
  unfold pruneOldestLocked
  split_ifs with hn
  · exact .refl hd heights
  have hperm : ((order.order d.voteHistory).mergeSort older).Perm d.voteHistory :=
    (List.mergeSort_perm _ _).trans (order.perm _)
  have hsorted : ((order.order d.voteHistory).mergeSort older).Pairwise fun v w => older v w = true :=
    List.pairwise_mergeSort older_trans older_total _
  refine ⟨⟨?_, ?_⟩, ?_, ?_, rfl⟩
  · exact ((hperm.pairwise_iff sameKey_symm).mpr hd.keys).drop
  · simp only [List.length_drop, hd.count, hperm.length_eq]
    omega
  · exact fun v hv => hperm.mem_iff.mp (List.mem_of_mem_drop hv)
  · intro v hv hin
    refine mem_drop_of_sorted (P := fun v => heights.all fun h => v.height < h) hsorted
      (hperm.mem_iff.mpr hv) ?_ ?_ ?_
    · rw [List.all_eq_false]
      exact ⟨v.height, hin, by simp⟩
    · intro w hvw
      rw [List.all_eq_false]
      refine ⟨v.height, hin, ?_⟩
      simp only [older, Bool.or_eq_true, Bool.and_eq_true, decide_eq_true_eq] at hvw
      simp only [decide_eq_true_eq]
      grind
    · rw [(hperm.filter _).length_eq]
      unfold spare at hspare
      omega

theorem pruneVoteHistory_forgets (hd : WellKept d) (hfloor : ∀ h ∈ heights, keepAbove ≤ h) :
    Forgets d heights (d.pruneVoteHistory keepAbove) := by
  refine ⟨⟨hd.keys.filter _, ?_⟩, fun v hv => List.mem_of_mem_filter hv, fun v hv hin => ?_, rfl⟩
  · simp only [pruneVoteHistory, hd.count]
    omega
  · refine List.mem_filter.mpr ⟨hv, ?_⟩
    simpa using hfloor v.height hin

/-- A vote whose key is new is recorded, and old entries may leave. -/
theorem checkAndRecordVote_fresh (hd : WellKept d) (order : RangeOrder Vote) (clock : Int)
    (hfresh : d.voteHistory.find? (sameKey vote) = none)
    (hspare : d.voteCount + 1 ≤ maxDoubleSignVoteHistory ∨
      d.voteCount + 1 - maxDoubleSignVoteHistory * 9 / 10 ≤ (spare heights d.voteHistory).length) :
    ∃ d', d.checkAndRecordVote order clock vote = (.ok (), d') ∧
      Forgets { d with voteHistory := d.voteHistory ++ [vote], voteCount := d.voteCount + 1 }
        heights d' := by
  have hkept : WellKept { d with voteHistory := d.voteHistory ++ [vote], voteCount := d.voteCount + 1 } := by
    refine ⟨?_, by simp [hd.count]⟩
    rw [List.pairwise_append]
    refine ⟨hd.keys, List.pairwise_singleton _ _, fun v hv w hw => ?_⟩
    rw [List.mem_singleton.mp hw, sameKey_comm]
    simpa using List.find?_eq_none.mp hfresh v hv
  unfold checkAndRecordVote
  rw [hfresh]
  dsimp only
  split_ifs with hfull
  · refine ⟨_, rfl, pruneOldestLocked_forgets hkept order _ ?_⟩
    rcases hspare with hroom | hspare
    · omega
    · refine hspare.trans ?_
      simp only [spare, List.filter_append, List.length_append]
      omega
  · exact ⟨_, rfl, .refl hkept heights⟩

theorem checkAndRecordVote_found (order : RangeOrder Vote) (clock : Int) {existing : Vote}
    (hfound : d.voteHistory.find? (sameKey vote) = some existing)
    (hne : existing.blockHash ≠ vote.blockHash) :
    ∃ evidence, d.checkAndRecordVote order clock vote =
      (.error .doubleSign, { d with evidence := evidence }) ∧ evidence.getLast? =
        some ⟨.doubleSigning, vote.validatorAddr, vote.height, some existing, some vote, 0, clock⟩ := by
  unfold checkAndRecordVote
  rw [hfound]
  dsimp only
  rw [if_pos hne]
  refine ⟨_, rfl, ?_⟩
  split_ifs with hlong
  · rw [List.getLast?_drop, if_neg, List.getLast?_concat]
    omega
  · rw [List.getLast?_concat]

end Detector

/-! ## The cases of a vote -/

/-- The set a vote goes to. -/
def VotingManager.setFor (vm : VotingManager) (vote : Vote) : VoteSet :=
  (vm.getSet vote.height vote.round vote.blockHash).getD
    (newVoteSet vote.blockHash (totalStake vm.validators.validators))

def VoteSet.count (vs : VoteSet) (vote : Vote) (stake : Int) : VoteSet :=
  { vs with votes := vs.votes.insert vote.validatorAddr vote, weight := vs.weight + stake }

/-- `vm'` has the vote set, the validators and the detector that are given. -/
structure Leaves (vm : VotingManager) (vote : Vote) (vs : VoteSet) (d : DoubleSignDetector)
    (vm' : VotingManager) : Prop where
  sets : vm'.voteSets = (vm.putSet vote.height vote.round vote.blockHash vs).voteSets
  validators : vm'.validators = vm.validators
  detector : vm'.doubleSignDetector = d

/-- What happens to a vote that has passed the checks in front of the tally:
it is dropped, it is a double vote, or it is counted. -/
inductive Cast (vm : VotingManager) (vote : Vote) (stake : Int) (heights : List UInt64) :
    Outcome → Prop where
  | dropped (e : VoteError) (vm' : VotingManager)
      (again : (vm.setFor vote).votes.contains vote.validatorAddr ∨
        ∃ existing, vm.doubleSignDetector.voteHistory.find? (sameKey vote) = some existing ∧
          existing.blockHash = vote.blockHash)
      (leaves : Leaves vm vote (vm.setFor vote) vm.doubleSignDetector vm') :
    Cast vm vote stake heights ⟨.error e, none, vm'⟩
  | double (existing : Vote) (clock : Int) (evidence : List SlashingEvidence) (o : Outcome) (e : VoteError)
      (error : o.reply = .error e)
      (found : vm.doubleSignDetector.voteHistory.find? (sameKey vote) = some existing)
      (differs : existing.blockHash ≠ vote.blockHash)
      (leaves : Leaves vm vote (vm.setFor vote)
        { vm.doubleSignDetector with evidence := evidence } o.vm)
      (delivered : ∃ ev : SlashingEvidence, (o.submitted = some ev ∨ ev ∈ o.vm.evidenceQueue) ∧
        ev = ⟨.doubleSigning, vote.validatorAddr, vote.height, some existing, some vote, 0, clock⟩) :
    Cast vm vote stake heights o
  | counted (d : DoubleSignDetector) (q : Bool) (vm' : VotingManager)
      (absent : (vm.setFor vote).votes.contains vote.validatorAddr = false)
      (fresh : vm.doubleSignDetector.voteHistory.find? (sameKey vote) = none)
      (forgets : Forgets { vm.doubleSignDetector with
        voteHistory := vm.doubleSignDetector.voteHistory ++ [vote]
        voteCount := vm.doubleSignDetector.voteCount + 1 } heights d)
      (leaves : Leaves vm vote ((vm.setFor vote).count vote stake) d vm') :
    Cast vm vote stake heights ⟨.ok q, none, vm'⟩

/-- The room a vote needs in the history. -/
def Room (vm : VotingManager) (heights : List UInt64) : Prop :=
  vm.doubleSignDetector.voteCount + 1 ≤ maxDoubleSignVoteHistory ∨
    vm.doubleSignDetector.voteCount + 1 - maxDoubleSignVoteHistory * 9 / 10 ≤
      (spare heights vm.doubleSignDetector.voteHistory).length

section Cast

variable {vm : VotingManager} {order : RangeOrder Vote} {clock stake : Int} {vote : Vote}
  {heights : List UInt64}

theorem deliver_spec (vm : VotingManager) (ev : SlashingEvidence) (accepted : Bool) :
    ((vm.deliver ev accepted).1 = some ev ∨ ev ∈ (vm.deliver ev accepted).2.evidenceQueue) ∧
      (vm.deliver ev accepted).2.voteSets = vm.voteSets ∧
      (vm.deliver ev accepted).2.validators = vm.validators ∧
      (vm.deliver ev accepted).2.doubleSignDetector = vm.doubleSignDetector := by
  unfold deliver
  split_ifs
  · exact ⟨.inl rfl, rfl, rfl, rfl⟩
  · exact ⟨.inr (by simp [queueEvidence]), rfl, rfl, rfl⟩

theorem setFor_blockHash (hhash : ∀ vs, vm.getSet vote.height vote.round vote.blockHash = some vs →
    vs.blockHash = vote.blockHash) : (vm.setFor vote).blockHash = vote.blockHash := by
  unfold setFor
  cases hs : vm.getSet vote.height vote.round vote.blockHash with
  | none => rfl
  | some vs => exact hhash vs hs

theorem tally_eq (order : RangeOrder Vote) (clock : Int) : vm.tally order clock vote stake =
    match (vm.setFor vote).addVote vm.doubleSignDetector order clock vote stake with
    | (.error e, d) =>
      (.error e, if e = .doubleSign then d.evidence.getLast? else none,
        { vm.putSet vote.height vote.round vote.blockHash (vm.setFor vote) with
          doubleSignDetector := d })
    | (.ok vs', d) =>
      (.ok vs'.hasQuorum, none,
        { vm.putSet vote.height vote.round vote.blockHash vs' with doubleSignDetector := d }) := rfl

/-- Both calls end in the same way once the vote has been tallied. -/
theorem cast_of_tally (order : RangeOrder Vote) (clock : Int) (hd : WellKept vm.doubleSignDetector)
    (hhash : ∀ vs, vm.getSet vote.height vote.round vote.blockHash = some vs →
      vs.blockHash = vote.blockHash) (hroom : Room vm heights) {o : Outcome}
    (hnone : ∀ reply vm', vm.tally order clock vote stake = (reply, none, vm') → o = ⟨reply, none, vm'⟩)
    (hsome : ∀ e ev vm', vm.tally order clock vote stake = (.error e, some ev, vm') →
      ∃ accepted e', o = ⟨.error e', (vm'.deliver ev accepted).1, (vm'.deliver ev accepted).2⟩) :
    Cast vm vote stake heights o := by
  have hblock := setFor_blockHash hhash
  have htally : vm.tally order clock vote stake = _ := tally_eq order clock
  unfold VoteSet.addVote at htally
  rw [if_neg (not_not.mpr hblock.symm)] at htally
  by_cases hin : (vm.setFor vote).votes.contains vote.validatorAddr = true
  · rw [if_pos hin] at htally
    rw [hnone _ _ htally]
    exact .dropped _ _ (.inl hin) ⟨rfl, rfl, rfl⟩
  rw [if_neg hin] at htally
  cases hfind : vm.doubleSignDetector.voteHistory.find? (sameKey vote) with
  | none =>
    obtain ⟨d, hrecord, hforgets⟩ := checkAndRecordVote_fresh hd order clock hfind hroom
    rw [hrecord] at htally
    rw [hnone _ _ htally]
    exact .counted d _ _ (Bool.eq_false_iff.mpr hin) hfind hforgets ⟨rfl, rfl, rfl⟩
  | some existing =>
    by_cases hsame : existing.blockHash = vote.blockHash
    · have hdup : vm.doubleSignDetector.checkAndRecordVote order clock vote =
          (.error .duplicateVote, vm.doubleSignDetector) := by
        simp [checkAndRecordVote, hfind, hsame]
      rw [hdup] at htally
      rw [hnone _ _ htally]
      exact .dropped _ _ (.inr ⟨existing, hfind, hsame⟩) ⟨rfl, rfl, rfl⟩
    · obtain ⟨evidence, hfound, hlast⟩ := checkAndRecordVote_found order clock hfind hsame
      rw [hfound] at htally
      simp only [if_true, hlast] at htally
      obtain ⟨accepted, e', rfl⟩ := hsome _ _ _ htally
      obtain ⟨hdelivered, hsets, hvalidators, hdetector⟩ := deliver_spec
        { vm.putSet vote.height vote.round vote.blockHash (vm.setFor vote) with
          doubleSignDetector := { vm.doubleSignDetector with evidence := evidence } }
        ⟨.doubleSigning, vote.validatorAddr, vote.height, some existing, some vote, 0, clock⟩ accepted
      exact .double existing clock evidence _ e' rfl hfind hsame ⟨hsets, hvalidators, hdetector⟩
        ⟨_, hdelivered, rfl⟩

section
variable (hd : WellKept vm.doubleSignDetector)
  (hhash : ∀ vs, vm.getSet vote.height vote.round vote.blockHash = some vs → vs.blockHash = vote.blockHash)
  (hroom : Room vm heights)
include hd hhash hroom

theorem addVote_cast {signed blacklisted accepted : Bool} {info : ValidatorInfo}
    (hcheck : vm.voteCheck vote signed blacklisted = .ok info) :
    Cast vm vote info.stake heights (vm.addVote order clock vote signed blacklisted accepted) := by
  refine cast_of_tally order clock hd hhash hroom ?_ ?_
  · intro reply vm' ht
    rw [addVote, hcheck]
    simp only [ht]
  · intro e ev vm' ht
    rw [addVote, hcheck]
    simp only [ht]
    split_ifs
    · exact ⟨accepted, _, rfl⟩
    · exact ⟨accepted, _, rfl⟩

theorem recordAttestationVote_cast {accepted : Bool} :
    Cast vm vote stake heights (vm.recordAttestationVote order clock vote stake accepted) := by
  refine cast_of_tally order clock hd hhash hroom ?_ ?_
  · intro reply vm' ht
    rw [recordAttestationVote, ht]
  · intro e ev vm' ht
    rw [recordAttestationVote, ht]
    exact ⟨accepted, _, rfl⟩

end

end Cast

end Qau.Voting
