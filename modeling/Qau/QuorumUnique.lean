import Qau.VoteTally
import Qau.ValidatorEffect
import Qau.Transition

/-!
# One quorum for a height and round

Runs of the voting manager between arbitrary calls to the validator manager,
with the ballots that stand in vote sets, the votes counted so far, and the
stakes at the moment the first vote set of a height and round was made.

The thresholds and the weights of the competing sets of one round are taken
from the stakes of different moments, and the detector that keeps a validator
from being counted twice forgets its oldest entries. Where the stakes of a
round and the entries of standing sets stay as they are (`Careful`), two
quorums of a round are for one block, no validator is counted twice, and a
double vote yields evidence (`quorum_unique`). In `quorum_unique_raised` a
stake is raised between two votes and two blocks have a quorum.
-/

namespace Qau.Voting

open VotingManager

open Consensus (Vote SlashingEvidence)
open Validators (ValidatorManager ValidatorInfo)

variable {b : Hash} {added : List (Vote × Int)} {r : UInt32} {h : UInt64}
  {S : Fmap Address ValidatorInfo} {o : Outcome} {b' : Hash}

inductive Event where
  | addVote (order : RangeOrder Vote) (clock : Int) (vote : Vote) (signed blacklisted accepted : Bool)
  | recordAttestationVote (order : RangeOrder Vote) (clock : Int) (vote : Vote) (stake : Int)
      (accepted : Bool)
  | pruneOldVotes (keepAbove : UInt64)
  | pruneVoteHistory (keepAbove : UInt64)
  | setSlashingManager (present : Bool)
  | validators (c : Validators.Call)

variable {e : Event}

def VotingManager.call (vm : VotingManager) : Event → Outcome
  | .addVote order clock vote signed blacklisted accepted =>
    vm.addVote order clock vote signed blacklisted accepted
  | .recordAttestationVote order clock vote stake accepted =>
    vm.recordAttestationVote order clock vote stake accepted
  | .pruneOldVotes keepAbove => ⟨.ok false, none, vm.pruneOldVotes keepAbove⟩
  | .pruneVoteHistory keepAbove =>
    ⟨.ok false, none,
      { vm with doubleSignDetector := vm.doubleSignDetector.pruneVoteHistory keepAbove }⟩
  | .setSlashingManager present => ⟨.ok false, none, { vm with slashingManager := present }⟩
  | .validators c => ⟨.ok false, none, { vm with validators := (vm.validators.call c).2 }⟩

/-- The vote that reaches the tally, with the stake it comes with. -/
def VotingManager.cast (vm : VotingManager) : Event → Option (Vote × Int)
  | .addVote _ _ vote signed blacklisted _ =>
    match vm.voteCheck vote signed blacklisted with
    | .error _ => none
    | .ok info => some (vote, info.stake)
  | .recordAttestationVote _ _ vote stake _ => some (vote, stake)
  | _ => none

structure Run where
  vm : VotingManager
  /-- The validators when the first set of a height and round was made. -/
  snapshot : UInt64 → UInt32 → Option (Fmap Address ValidatorInfo)
  /-- The ballots in the sets that stand. -/
  ballots : List (Vote × Int)
  /-- All votes counted so far. -/
  history : List Vote

namespace Run

def start : Run := ⟨newVotingManager Validators.newValidatorManager, fun _ _ => none, [], []⟩

variable (s : Run)

/-- The ballot that a call adds. -/
def ballot (e : Event) : Option (Vote × Int) :=
  match (s.vm.call e).reply with
  | .error _ => none
  | .ok _ => s.vm.cast e

/-- The stakes that count for a height and round. -/
def stakes (height : UInt64) (round : UInt32) : Fmap Address ValidatorInfo :=
  (s.snapshot height round).getD s.vm.validators.validators

def step (e : Event) : Run where
  vm := (s.vm.call e).vm
  snapshot := fun h r =>
    match e, s.vm.cast e with
    | .pruneOldVotes keepAbove, _ => if h < keepAbove then none else s.snapshot h r
    | _, some (vote, _) =>
      if vote.height = h ∧ vote.round = r then some (s.stakes h r) else s.snapshot h r
    | _, none => s.snapshot h r
  ballots :=
    match e with
    | .pruneOldVotes keepAbove => s.ballots.filter fun b => !(b.1.height < keepAbove)
    | _ => (s.ballot e).toList ++ s.ballots
  history := ((s.ballot e).map Prod.fst).toList ++ s.history

end Run

/-- A vote weighs at most what its validator had when the round began, and a
new set asks for at least as much as the first. The detector has room, and
still knows every vote that the new one contradicts. -/
def CarefulCast (s : Run) (b : Vote × Int) : Prop :=
  b.2 ≤ activeStake (s.stakes b.1.height b.1.round) b.1.validatorAddr ∧
  (s.vm.getSet b.1.height b.1.round b.1.blockHash = none →
    totalStake (s.stakes b.1.height b.1.round) ≤ totalStake s.vm.validators.validators) ∧
  Room s.vm (b.1.height :: s.vm.voteSets.keys) ∧
  ∀ v ∈ s.history, sameKey b.1 v → v.blockHash ≠ b.1.blockHash →
    v ∈ s.vm.doubleSignDetector.voteHistory

/-- A vote that counts is careful, and entries of standing sets stay in the
detector. -/
def Careful (s : Run) (e : Event) : Prop :=
  match e with
  | .pruneVoteHistory keepAbove => ∀ h ∈ s.vm.voteSets.keys, keepAbove ≤ h
  | _ => ∀ b ∈ s.vm.cast e, CarefulCast s b

instance (vm : VotingManager) (heights : List UInt64) : Decidable (Room vm heights) :=
  inferInstanceAs (Decidable (_ ∨ _))

instance (s : Run) (e : Event) : Decidable (Careful s e) := by
  unfold Careful CarefulCast
  split <;> infer_instance

/-! ## The invariant -/

/-- The ballots of one set. -/
def Run.ballotsAt (s : Run) (h : UInt64) (r : UInt32) (b : Hash) : List (Vote × Int) :=
  s.ballots.filter fun e => e.1.height = h ∧ e.1.round = r ∧ e.1.blockHash = b

structure Invariant (s : Run) : Prop where
  hash : ∀ h r b vs, s.vm.getSet h r b = some vs → vs.blockHash = b
  kept : WellKept s.vm.doubleSignDetector
  recorded : ∀ e ∈ s.ballots, e.1 ∈ s.vm.doubleSignDetector.voteHistory
  standing : ∀ e ∈ s.ballots, (s.vm.getSet e.1.height e.1.round e.1.blockHash).isSome
  distinct : s.ballots.Pairwise fun e e' => sameKey e.1 e'.1 = false
  weight : ∀ h r b vs, s.vm.getSet h r b = some vs →
    vs.weight = ((s.ballotsAt h r b).map Prod.snd).sum
  voters : ∀ h r b vs, s.vm.getSet h r b = some vs →
    ∀ a, vs.votes.contains a = true ↔ ∃ e ∈ s.ballotsAt h r b, e.1.validatorAddr = a
  threshold : ∀ h r b vs, s.vm.getSet h r b = some vs →
    ∃ S total, s.snapshot h r = some S ∧ totalStake S ≤ total ∧ vs.threshold = quorumThreshold total
  stake : ∀ e ∈ s.ballots, ∃ S, s.snapshot e.1.height e.1.round = some S ∧
    e.2 ≤ activeStake S e.1.validatorAddr
  nonneg : NonnegStakes s.vm.validators.validators
  snapshots : ∀ h r S, s.snapshot h r = some S → NonnegStakes S

variable {s : Run}

theorem mem_ballotsAt {e : Vote × Int} : e ∈ s.ballotsAt h r b ↔
      e ∈ s.ballots ∧ e.1.height = h ∧ e.1.round = r ∧ e.1.blockHash = b := by
  simp [Run.ballotsAt]

theorem Invariant.stakes_nonneg (hi : Invariant s) (h : UInt64) (r : UInt32) :
    NonnegStakes (s.stakes h r) := by
  unfold Run.stakes
  cases hs : s.snapshot h r with
  | none => exact hi.nonneg
  | some S => exact hi.snapshots h r S hs

/-! ## A vote -/

section Vote

variable {vote : Vote} {stake : Int} {vs : VoteSet} {d : DoubleSignDetector} {vm' : VotingManager}

theorem Leaves.getSet {vm : VotingManager} (hl : Leaves vm vote vs d vm') (h : UInt64) (r : UInt32)
    (b : Hash) : vm'.getSet h r b =
      if vote.height = h ∧ vote.round = r ∧ vote.blockHash = b then some vs else vm.getSet h r b := by
  rw [← getSet_putSet]
  unfold VotingManager.getSet
  rw [hl.sets]

/-- The set a vote goes to is as the invariant has it, also when it is new. -/
theorem Invariant.setFor_spec (hi : Invariant s)
    (hnew : s.vm.getSet vote.height vote.round vote.blockHash = none →
      totalStake (s.stakes vote.height vote.round) ≤ totalStake s.vm.validators.validators) :
    (s.vm.setFor vote).blockHash = vote.blockHash ∧
    (s.vm.setFor vote).weight =
      ((s.ballotsAt vote.height vote.round vote.blockHash).map Prod.snd).sum ∧
    (∀ a, (s.vm.setFor vote).votes.contains a = true ↔
      ∃ e ∈ s.ballotsAt vote.height vote.round vote.blockHash, e.1.validatorAddr = a) ∧
    ∃ total, totalStake (s.stakes vote.height vote.round) ≤ total ∧
      (s.vm.setFor vote).threshold = quorumThreshold total := by
  unfold setFor
  cases hs : s.vm.getSet vote.height vote.round vote.blockHash with
  | some vs =>
    obtain ⟨S, total, hsnap, hle, hthreshold⟩ := hi.threshold _ _ _ vs hs
    refine ⟨hi.hash _ _ _ vs hs, hi.weight _ _ _ vs hs, hi.voters _ _ _ vs hs, total, ?_, hthreshold⟩
    rwa [Run.stakes, hsnap]
  | none =>
    have hempty : s.ballotsAt vote.height vote.round vote.blockHash = [] := by
      rw [List.eq_nil_iff_forall_not_mem]
      intro e he
      obtain ⟨hmem, hh, hr, hb⟩ := mem_ballotsAt.mp he
      have := hi.standing e hmem
      rw [hh, hr, hb, hs] at this
      cases this
    refine ⟨rfl, by rw [hempty]; rfl, fun a => ?_, _, hnew hs, rfl⟩
    rw [hempty]
    simp [newVoteSet]

/-- The run after a vote that reached the tally. -/
def Run.voted (s : Run) (vote : Vote) (vm' : VotingManager) (added : List (Vote × Int)) : Run where
  vm := vm'
  snapshot := fun h r =>
    if vote.height = h ∧ vote.round = r then some (s.stakes h r) else s.snapshot h r
  ballots := added ++ s.ballots
  history := added.map Prod.fst ++ s.history

theorem snapshot_voted (hs : s.snapshot h r = some S) :
    (s.voted vote vm' added).snapshot h r = some S := by
  simp only [Run.voted, Run.stakes, hs, Option.getD_some, ite_self]

theorem snapshot_voted_self : (s.voted vote vm' added).snapshot vote.height vote.round =
      some (s.stakes vote.height vote.round) := by
  simp [Run.voted]

theorem Invariant.voted (hi : Invariant s) (hl : Leaves s.vm vote vs d vm') (hkept : WellKept d)
    (hadded : ∀ e ∈ added, e = (vote, stake))
    (hstake : stake ≤ activeStake (s.stakes vote.height vote.round) vote.validatorAddr)
    (hhash : vs.blockHash = vote.blockHash)
    (hrecorded : ∀ e ∈ added ++ s.ballots, e.1 ∈ d.voteHistory)
    (hdistinct : (added ++ s.ballots).Pairwise fun e e' => sameKey e.1 e'.1 = false)
    (hweight : vs.weight = ((added ++ s.ballotsAt vote.height vote.round vote.blockHash).map Prod.snd).sum)
    (hvoters : ∀ a, vs.votes.contains a = true ↔
      ∃ e ∈ added ++ s.ballotsAt vote.height vote.round vote.blockHash, e.1.validatorAddr = a)
    (hthreshold : ∃ total, totalStake (s.stakes vote.height vote.round) ≤ total ∧
      vs.threshold = quorumThreshold total) : Invariant (s.voted vote vm' added) := by
  have hself : (s.voted vote vm' added).ballotsAt vote.height vote.round vote.blockHash =
      added ++ s.ballotsAt vote.height vote.round vote.blockHash := by
    simp only [Run.ballotsAt, Run.voted, List.filter_append]
    congr 1
    rw [List.filter_eq_self]
    intro e he
    simp [hadded e he]
  have hother : ∀ h r b, ¬ (vote.height = h ∧ vote.round = r ∧ vote.blockHash = b) →
      (s.voted vote vm' added).ballotsAt h r b = s.ballotsAt h r b := by
    intro h r b hne
    have hnil : added.filter (fun e => e.1.height = h ∧ e.1.round = r ∧ e.1.blockHash = b) = [] := by
      rw [List.filter_eq_nil_iff]
      intro e he
      simpa [hadded e he] using hne
    simp only [Run.ballotsAt, Run.voted, List.filter_append, hnil, List.nil_append]
  have hget : ∀ h r b, (s.voted vote vm' added).vm.getSet h r b =
      if vote.height = h ∧ vote.round = r ∧ vote.blockHash = b then some vs
      else s.vm.getSet h r b := hl.getSet
  have hcases : ∀ h r b vs', (s.voted vote vm' added).vm.getSet h r b = some vs' →
      (vote.height = h ∧ vote.round = r ∧ vote.blockHash = b ∧ vs = vs') ∨
      (¬ (vote.height = h ∧ vote.round = r ∧ vote.blockHash = b) ∧ s.vm.getSet h r b = some vs') := by
    intro h r b vs' hs
    rw [hget] at hs
    split_ifs at hs with hkey
    · exact .inl ⟨hkey.1, hkey.2.1, hkey.2.2, Option.some.inj hs⟩
    · exact .inr ⟨hkey, hs⟩
  constructor
  · intro h r b vs' hs
    rcases hcases h r b vs' hs with ⟨rfl, rfl, rfl, rfl⟩ | ⟨-, hs⟩
    · exact hhash
    · exact hi.hash h r b vs' hs
  · show WellKept vm'.doubleSignDetector
    rw [hl.detector]
    exact hkept
  · intro e he
    show e.1 ∈ vm'.doubleSignDetector.voteHistory
    rw [hl.detector]
    exact hrecorded e he
  · intro e he
    rw [hget]
    split_ifs with hkey
    · rfl
    · rcases List.mem_append.mp he with he | he
      · simp [hadded e he] at hkey
      · exact hi.standing e he
  · exact hdistinct
  · intro h r b vs' hs
    rcases hcases h r b vs' hs with ⟨rfl, rfl, rfl, rfl⟩ | ⟨hne, hs⟩
    · rw [hself, hweight]
    · rw [hother h r b hne, hi.weight h r b vs' hs]
  · intro h r b vs' hs
    rcases hcases h r b vs' hs with ⟨rfl, rfl, rfl, rfl⟩ | ⟨hne, hs⟩
    · rw [hself]
      exact hvoters
    · rw [hother h r b hne]
      exact hi.voters h r b vs' hs
  · intro h r b vs' hs
    rcases hcases h r b vs' hs with ⟨rfl, rfl, rfl, rfl⟩ | ⟨-, hs⟩
    · obtain ⟨total, hle, hth⟩ := hthreshold
      exact ⟨_, total, snapshot_voted_self, hle, hth⟩
    · obtain ⟨S, total, hsnap, hrest⟩ := hi.threshold h r b vs' hs
      exact ⟨S, total, snapshot_voted hsnap, hrest⟩
  · intro e he
    rcases List.mem_append.mp he with he | he
    · rw [hadded e he]
      exact ⟨_, snapshot_voted_self, hstake⟩
    · obtain ⟨S, hsnap, hle⟩ := hi.stake e he
      exact ⟨S, snapshot_voted hsnap, hle⟩
  · show NonnegStakes vm'.validators.validators
    rw [hl.validators]
    exact hi.nonneg
  · intro h r S hS
    simp only [Run.voted] at hS
    split_ifs at hS
    · rw [← Option.some.inj hS]
      exact hi.stakes_nonneg h r
    · exact hi.snapshots h r S hS

theorem invariant_cast (hi : Invariant s)
    (hcast : Cast s.vm vote stake (vote.height :: s.vm.voteSets.keys) o)
    (hstake : stake ≤ activeStake (s.stakes vote.height vote.round) vote.validatorAddr)
    (hnew : s.vm.getSet vote.height vote.round vote.blockHash = none →
      totalStake (s.stakes vote.height vote.round) ≤ totalStake s.vm.validators.validators) :
    Invariant (s.voted vote o.vm
      (match o.reply with
        | .error _ => []
        | .ok _ => [(vote, stake)])) := by
  obtain ⟨hhash, hweight, hvoters, hthreshold⟩ := hi.setFor_spec hnew
  cases hcast with
  | dropped e vm' again leaves =>
    exact hi.voted leaves hi.kept (by simp) hstake hhash hi.recorded hi.distinct hweight hvoters hthreshold
  | double existing clock evidence _ e error found differs leaves delivered =>
    rw [error]
    exact hi.voted leaves ⟨hi.kept.keys, hi.kept.count⟩ (by simp) hstake hhash hi.recorded hi.distinct
      hweight hvoters hthreshold
  | counted d q vm' absent fresh forgets leaves =>
    have hnone := List.find?_eq_none.mp fresh
    refine hi.voted leaves forgets.kept (by simp) hstake hhash ?_ ?_ ?_ ?_ hthreshold
    · intro e he
      rcases List.mem_cons.mp he with rfl | he
      · exact forgets.used vote (by simp) (by simp)
      · have hset := hi.standing e he
        obtain ⟨vs, hvs⟩ := Option.isSome_iff_exists.mp hset
        refine forgets.used e.1 (by simp [hi.recorded e he]) ?_
        exact List.mem_cons_of_mem _ (mem_keys_of_getSet hvs)
    · refine List.pairwise_cons.mpr ⟨fun e he => ?_, hi.distinct⟩
      simpa using hnone e.1 (hi.recorded e he)
    · simp only [VoteSet.count, hweight, List.singleton_append, List.map_cons, List.sum_cons]
      ring
    · intro a
      simp only [VoteSet.count, Std.ExtTreeMap.contains_insert, Bool.or_eq_true, beq_iff_eq,
        Std.compare_eq_iff_eq, hvoters, List.singleton_append, List.mem_cons, exists_eq_or_imp]

theorem Invariant.evidence (hi : Invariant s) {v : Vote}
    (hcast : Cast s.vm vote stake (vote.height :: s.vm.voteSets.keys) o)
    (hnew : s.vm.getSet vote.height vote.round vote.blockHash = none →
      totalStake (s.stakes vote.height vote.round) ≤ totalStake s.vm.validators.validators)
    (hv : v ∈ s.vm.doubleSignDetector.voteHistory) (hkey : sameKey vote v = true)
    (hne : v.blockHash ≠ vote.blockHash) : (∃ e, o.reply = .error e) ∧
    ∃ ev, (o.submitted = some ev ∨ ev ∈ o.vm.evidenceQueue) ∧ ev.reason = .doubleSigning ∧
      ev.validatorAddr = vote.validatorAddr ∧ ev.height = vote.height ∧ ev.vote1 = some v ∧
      ev.vote2 = some vote := by
  have hfind := hi.kept.find? hv hkey
  obtain ⟨-, -, hvoters, -⟩ := hi.setFor_spec hnew
  cases hcast with
  | dropped e vm' again leaves =>
    exfalso
    rcases again with hin | ⟨existing, hfound, hsame⟩
    · obtain ⟨b, hb, haddr⟩ := (hvoters _).mp hin
      obtain ⟨hmem, hh, hr, hhash⟩ := mem_ballotsAt.mp hb
      have hkey' : sameKey vote b.1 = true := sameKey_iff.mpr ⟨haddr.symm, hh.symm, hr.symm⟩
      have hfind' := hi.kept.find? (hi.recorded b hmem) hkey'
      rw [hfind] at hfind'
      exact hne (Option.some.inj hfind' ▸ hhash)
    · rw [hfind] at hfound
      exact hne (Option.some.inj hfound ▸ hsame)
  | double existing clock evidence _ e error found differs leaves delivered =>
    rw [hfind] at found
    obtain rfl := Option.some.inj found
    obtain ⟨ev, hdelivered, rfl⟩ := delivered
    exact ⟨⟨e, error⟩, _, hdelivered, rfl, rfl, rfl, rfl, rfl⟩
  | counted d q vm' absent fresh forgets leaves =>
    rw [hfind] at fresh
    cases fresh

end Vote

/-! ## Runs -/

theorem step_of_cast {vote : Vote} {stake : Int} (hcast : s.vm.cast e = some (vote, stake)) :
    s.step e = s.voted vote (s.vm.call e).vm
      (match (s.vm.call e).reply with
        | .error _ => []
        | .ok _ => [(vote, stake)]) := by
  cases e with
  | addVote order clock v signed blacklisted accepted =>
    simp only [Run.step, Run.voted, Run.ballot, hcast]
    cases (s.vm.call (.addVote order clock v signed blacklisted accepted)).reply <;> rfl
  | recordAttestationVote order clock v st accepted =>
    simp only [Run.step, Run.voted, Run.ballot, hcast]
    cases (s.vm.call (.recordAttestationVote order clock v st accepted)).reply <;> rfl
  | pruneOldVotes | pruneVoteHistory | setSlashingManager | validators => cases hcast

theorem Invariant.cast (hi : Invariant s) {vote : Vote} {stake : Int}
    (hcast : s.vm.cast e = some (vote, stake)) {heights : List UInt64} (hroom : Room s.vm heights) :
    Cast s.vm vote stake heights (s.vm.call e) := by
  cases e with
  | addVote order clock v signed blacklisted accepted =>
    simp only [VotingManager.cast] at hcast
    cases hcheck : s.vm.voteCheck v signed blacklisted with
    | error err =>
      rw [hcheck] at hcast
      cases hcast
    | ok info =>
      rw [hcheck] at hcast
      cases hcast
      exact addVote_cast hi.kept (hi.hash _ _ _) hroom hcheck
  | recordAttestationVote order clock v st accepted =>
    cases hcast
    exact recordAttestationVote_cast hi.kept (hi.hash _ _ _) hroom
  | pruneOldVotes | pruneVoteHistory | setSlashingManager | validators => cases hcast

theorem Careful.of_cast {b : Vote × Int} (hc : Careful s e) (hcast : s.vm.cast e = some b) :
    CarefulCast s b := by
  cases e with
  | addVote | recordAttestationVote => exact hc b hcast
  | pruneOldVotes | pruneVoteHistory | setSlashingManager | validators => cases hcast

theorem Invariant.pruneOldVotes (hi : Invariant s) (keepAbove : UInt64) :
    Invariant (s.step (.pruneOldVotes keepAbove)) := by
  have hget : ∀ h r b vs, (s.step (.pruneOldVotes keepAbove)).vm.getSet h r b = some vs →
      ¬ h < keepAbove ∧ s.vm.getSet h r b = some vs := by
    intro h r b vs hs
    have hs' : (s.vm.pruneOldVotes keepAbove).getSet h r b = some vs := hs
    rw [getSet_pruneOldVotes] at hs'
    split_ifs at hs' with hk
    exact ⟨hk, hs'⟩
  have hsnap : ∀ h r, ¬ h < keepAbove →
      (s.step (.pruneOldVotes keepAbove)).snapshot h r = s.snapshot h r :=
    fun h r hk => if_neg hk
  have hmem : ∀ e ∈ (s.step (.pruneOldVotes keepAbove)).ballots,
      e ∈ s.ballots ∧ ¬ e.1.height < keepAbove := by
    intro e he
    simpa using List.mem_filter.mp he
  have hat : ∀ h r b, ¬ h < keepAbove →
      (s.step (.pruneOldVotes keepAbove)).ballotsAt h r b = s.ballotsAt h r b := by
    intro h r b hk
    simp only [Run.ballotsAt, Run.step, List.filter_filter]
    refine List.filter_congr fun e _ => ?_
    by_cases hh : e.1.height = h
    · simp [hh, hk]
    · simp [hh]
  constructor
  · exact fun h r b vs hs => hi.hash h r b vs (hget h r b vs hs).2
  · exact hi.kept
  · exact fun e he => hi.recorded e (hmem e he).1
  · intro e he
    obtain ⟨he, hk⟩ := hmem e he
    show ((s.vm.pruneOldVotes keepAbove).getSet _ _ _).isSome
    rw [getSet_pruneOldVotes, if_neg hk]
    exact hi.standing e he
  · exact hi.distinct.filter _
  · intro h r b vs hs
    obtain ⟨hk, hs⟩ := hget h r b vs hs
    rw [hat h r b hk, hi.weight h r b vs hs]
  · intro h r b vs hs
    obtain ⟨hk, hs⟩ := hget h r b vs hs
    rw [hat h r b hk]
    exact hi.voters h r b vs hs
  · intro h r b vs hs
    obtain ⟨hk, hs⟩ := hget h r b vs hs
    rw [hsnap h r hk]
    exact hi.threshold h r b vs hs
  · intro e he
    obtain ⟨he, hk⟩ := hmem e he
    rw [hsnap _ _ hk]
    exact hi.stake e he
  · exact hi.nonneg
  · intro h r S hS
    by_cases hk : h < keepAbove
    · have hS' : (if h < keepAbove then none else s.snapshot h r) = some S := hS
      rw [if_pos hk] at hS'
      cases hS'
    · rw [hsnap h r hk] at hS
      exact hi.snapshots h r S hS

/-- The detector forgets nothing that a standing set needs. -/
theorem Invariant.pruneVoteHistory (hi : Invariant s) {keepAbove : UInt64}
    (hc : ∀ h ∈ s.vm.voteSets.keys, keepAbove ≤ h) :
    Invariant (s.step (.pruneVoteHistory keepAbove)) := by
  have hforgets := pruneVoteHistory_forgets hi.kept hc
  refine ⟨hi.hash, hforgets.kept, fun e he => ?_, hi.standing, hi.distinct, hi.weight, hi.voters,
    hi.threshold, hi.stake, hi.nonneg, hi.snapshots⟩
  obtain ⟨vs, hvs⟩ := Option.isSome_iff_exists.mp (hi.standing e he)
  exact hforgets.used e.1 (hi.recorded e he) (mem_keys_of_getSet hvs)

theorem invariant_step (s : Run) (e : Event) (hi : Invariant s) (hc : Careful s e) :
    Invariant (s.step e) := by
  cases hcast : s.vm.cast e with
  | some b =>
    obtain ⟨hstake, hnew, hroom, -⟩ := hc.of_cast hcast
    rw [step_of_cast hcast]
    exact invariant_cast hi (hi.cast hcast hroom) hstake hnew
  | none =>
    cases e with
    | addVote order clock vote signed blacklisted accepted =>
      have hsame : s.step (.addVote order clock vote signed blacklisted accepted) = s := by
        cases hcheck : s.vm.voteCheck vote signed blacklisted with
        | ok info =>
          rw [VotingManager.cast, hcheck] at hcast
          cases hcast
        | error err =>
          have hcall : s.vm.call (.addVote order clock vote signed blacklisted accepted) =
              ⟨.error err, none, s.vm⟩ := by
            rw [call, addVote, hcheck]
          simp only [Run.step, Run.ballot, hcast, hcall]
          rfl
      rw [hsame]
      exact hi
    | recordAttestationVote => cases hcast
    | pruneOldVotes keepAbove => exact hi.pruneOldVotes keepAbove
    | pruneVoteHistory keepAbove => exact hi.pruneVoteHistory hc
    | setSlashingManager present =>
      exact ⟨hi.hash, hi.kept, hi.recorded, hi.standing, hi.distinct, hi.weight, hi.voters,
        hi.threshold, hi.stake, hi.nonneg, hi.snapshots⟩
    | validators c =>
      exact ⟨hi.hash, hi.kept, hi.recorded, hi.standing, hi.distinct, hi.weight, hi.voters,
        hi.threshold, hi.stake, (Validators.call_effect _ c).stake_nonneg hi.nonneg, hi.snapshots⟩

theorem invariant_start : Invariant Run.start := by
  have hget : ∀ h r b, Run.start.vm.getSet h r b = none := by
    intro h r b
    simp [Run.start, newVotingManager, VotingManager.getSet]
  refine ⟨?_, ⟨List.Pairwise.nil, rfl⟩, ?_, ?_, List.Pairwise.nil, ?_, ?_, ?_, ?_, ?_, ?_⟩
  · intro h r b vs hs
    rw [hget] at hs
    cases hs
  · simp [Run.start]
  · simp [Run.start]
  · intro h r b vs hs
    rw [hget] at hs
    cases hs
  · intro h r b vs hs
    rw [hget] at hs
    cases hs
  · intro h r b vs hs
    rw [hget] at hs
    cases hs
  · simp [Run.start]
  · intro addr v hv
    simp [Run.start, newVotingManager, Validators.newValidatorManager] at hv
  · intro h r S hS
    cases hS

/-! ## Uniqueness -/

/-- Ballots for two blocks of one round weigh at most the stakes that count. -/
theorem Invariant.weight_add_le (hi : Invariant s) (hS : s.snapshot h r = some S) (hne : b ≠ b') :
    ((s.ballotsAt h r b).map Prod.snd).sum + ((s.ballotsAt h r b').map Prod.snd).sum ≤ totalStake S := by
  have hat : ∀ e ∈ s.ballotsAt h r b ++ s.ballotsAt h r b',
      e ∈ s.ballots ∧ e.1.height = h ∧ e.1.round = r := by
    intro e he
    rcases List.mem_append.mp he with he | he
    · obtain ⟨hmem, hh, hr, -⟩ := mem_ballotsAt.mp he
      exact ⟨hmem, hh, hr⟩
    · obtain ⟨hmem, hh, hr, -⟩ := mem_ballotsAt.mp he
      exact ⟨hmem, hh, hr⟩
  have hdistinct : (s.ballotsAt h r b ++ s.ballotsAt h r b').Pairwise
      fun e e' => sameKey e.1 e'.1 = false := by
    refine List.pairwise_append.mpr ⟨hi.distinct.filter _, hi.distinct.filter _, fun e he e' he' => ?_⟩
    obtain ⟨hmem, -, -, hb⟩ := mem_ballotsAt.mp he
    obtain ⟨hmem', -, -, hb'⟩ := mem_ballotsAt.mp he'
    have : Std.Symm fun e e' : Vote × Int => sameKey e.1 e'.1 = false := ⟨fun _ _ => sameKey_symm⟩
    refine hi.distinct.forall hmem hmem' fun heq => hne ?_
    rw [← hb, ← hb', heq]
  have hnodup : (((s.ballotsAt h r b ++ s.ballotsAt h r b').map fun e =>
      (e.1.validatorAddr, e.2)).map Prod.fst).Nodup := by
    rw [List.map_map, List.Nodup, List.pairwise_map]
    refine hdistinct.imp_of_mem fun he he' hkey heq => ?_
    obtain ⟨-, hh, hr⟩ := hat _ he
    obtain ⟨-, hh', hr'⟩ := hat _ he'
    rw [sameKey_iff.mpr ⟨heq, hh.trans hh'.symm, hr.trans hr'.symm⟩] at hkey
    cases hkey
  have hle := sum_le_totalStake (hi.snapshots h r S hS) hnodup fun e he => by
    obtain ⟨e, hin, rfl⟩ := List.mem_map.mp he
    obtain ⟨hmem, hh, hr⟩ := hat e hin
    obtain ⟨S', hS', hle⟩ := hi.stake e hmem
    rw [hh, hr, hS] at hS'
    exact Option.some.inj hS' ▸ hle
  simpa [List.map_map, Function.comp_def] using hle

theorem Invariant.unique (hi : Invariant s) {vs vs' : VoteSet} (hs : s.vm.getSet h r b = some vs)
    (hs' : s.vm.getSet h r b' = some vs') (hq : vs.hasQuorum = true) (hq' : vs'.hasQuorum = true) :
    b = b' := by
  by_contra hne
  obtain ⟨S, total, hS, htotal, hth⟩ := hi.threshold h r b vs hs
  obtain ⟨S', total', hS', htotal', hth'⟩ := hi.threshold h r b' vs' hs'
  rw [hS] at hS'
  obtain rfl := Option.some.inj hS'
  have hsum := hi.weight_add_le hS hne
  rw [← hi.weight h r b vs hs, ← hi.weight h r b' vs' hs'] at hsum
  have hnonneg := totalStake_nonneg (hi.snapshots h r S hS)
  have hlow := two_mul_le_quorumThreshold total
  have hlow' := two_mul_le_quorumThreshold total'
  simp only [VoteSet.hasQuorum, Bool.and_eq_true, decide_eq_true_eq] at hq hq'
  omega

/-- What is asked of a state. -/
structure Lawful (s : Run) : Prop where
  unique : ∀ h r b b' vs vs', s.vm.getSet h r b = some vs → s.vm.getSet h r b' = some vs' →
    vs.hasQuorum = true → vs'.hasQuorum = true → b = b'
  /-- No validator has two ballots for a height and round. -/
  once : s.ballots.Pairwise fun e e' => sameKey e.1 e'.1 = false
  /-- A set weighs what its ballots weigh. -/
  weight : ∀ h r b vs, s.vm.getSet h r b = some vs →
    vs.weight = ((s.ballotsAt h r b).map Prod.snd).sum

/-- What is asked of a call that brings `vote`: if an earlier vote of the
validator at that height and round was for another block, the call fails and
evidence that names the validator goes to the slashing manager or the queue. -/
def Exposes (s : Run) (e : Event) (vote : Vote) : Prop :=
  ∀ v ∈ s.history, sameKey vote v = true → v.blockHash ≠ vote.blockHash →
    (∃ err, (s.vm.call e).reply = .error err) ∧
    ∃ ev, ((s.vm.call e).submitted = some ev ∨ ev ∈ (s.vm.call e).vm.evidenceQueue) ∧
      ev.reason = .doubleSigning ∧ ev.validatorAddr = vote.validatorAddr ∧ ev.height = vote.height ∧
      ev.vote1 = some v ∧ ev.vote2 = some vote

/-- In every run whose effective calls are careful, two quorums of one height
and round are for one block, no validator is counted twice in a round, and
every double vote that reaches the tally yields evidence. -/
theorem quorum_unique {s : Run} (h : Reachable Run.step (Guarded Run.step Careful) Run.start s) :
    Lawful s ∧ ∀ e vote stake, Careful s e → s.vm.cast e = some (vote, stake) → Exposes s e vote := by
  have hi : Invariant s := h.of_guarded.invariant invariant_start invariant_step
  refine ⟨⟨fun h r b b' vs vs' => hi.unique, hi.distinct, hi.weight⟩, ?_⟩
  intro e vote stake hc hcast v hv hkey hne
  obtain ⟨-, hnew, hroom, hheld⟩ := hc.of_cast hcast
  exact hi.evidence (hi.cast hcast hroom) hnew (hheld v hv hkey hne) hkey hne

/-! ## Two runs -/

/-- The validators of the runs below. -/
def voter (b : UInt8) : Address := ⟨List.replicate 20 b, by simp⟩

def voteOf (v b : UInt8) : Event :=
  .addVote (.sorted Vote) 0
    ⟨Consensus.VoteType.precommit, 7, 0, hashOf b, voter v, [], 0, 0, zeroArr 32, zeroArr 32, 0, 0⟩
    true false false

def join (v : UInt8) (stake : Int) : Event :=
  .validators (.addGenesisValidator (voter v) (voter v) (some stake) 500 0)

/-- Three equal validators; one votes for two blocks. -/
def equivocation : List Event := [join 1 1, join 2 1, join 3 1, voteOf 1 1, voteOf 2 1, voteOf 1 2]

theorem quorum_unique_equivocation : Allowed Run.step Careful Run.start equivocation ∧
      Lawful (equivocation.foldl Run.step Run.start) ∧
      ((equivocation.foldl Run.step Run.start).vm.getSet 7 0 (hashOf 1)).any VoteSet.hasQuorum ∧
      (equivocation.foldl Run.step Run.start).vm.evidenceQueue.map (·.validatorAddr) = [voter 1] := by
  have hallowed : Allowed Run.step Careful Run.start equivocation := by decide +kernel
  exact ⟨hallowed, (quorum_unique (Reachable.init.foldl hallowed).guarded).1, by decide +kernel,
    by decide +kernel⟩

/-- Two validators of stake 1 and one without stake, whose stake is raised
after the two have voted. -/
def raisedStake : List Event :=
  [join 1 1, join 2 1, join 3 0, voteOf 1 1, voteOf 2 1,
    .validators (.updateStake (voter 3) (voter 3) (some Validators.minStakeAmount) none 1), voteOf 3 2]

/-- Both blocks of the round have a quorum. -/
theorem quorum_unique_raised : ¬ Lawful (raisedStake.foldl Run.step Run.start) := by
  intro h
  have hfirst : ((raisedStake.foldl Run.step Run.start).vm.getSet 7 0 (hashOf 1)).any
      VoteSet.hasQuorum = true := by decide +kernel
  have hsecond : ((raisedStake.foldl Run.step Run.start).vm.getSet 7 0 (hashOf 2)).any
      VoteSet.hasQuorum = true := by decide +kernel
  obtain ⟨vs, hs, hq⟩ := (Option.any_eq_true _ _).mp hfirst
  obtain ⟨vs', hs', hq'⟩ := (Option.any_eq_true _ _).mp hsecond
  exact absurd (h.unique 7 0 (hashOf 1) (hashOf 2) vs vs' hs hs' hq hq') (by decide)

end Qau.Voting
