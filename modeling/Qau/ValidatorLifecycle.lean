import Qau.ValidatorEffect
import Qau.Transition

/-!
# The life of a validator

Runs of the manager with a log of who joined and left and of what was staked,
slashed and paid, and for each address the last height at which it was active.
The log says who has left, and not `ExitHeight`: `RemoveValidator` at height 0
succeeds and writes a zero there.

The source checks less than the lifecycle needs: `SetActive` and
`ActivateFromQueue` activate a validator that has left, `ActivateFromQueue`
looks neither at the stake nor at the jail term, `SetJailedUntil` leaves the
validator active, and `SetActive` clears an expired term before it refuses a
low stake. Under the guard `Careful`, which asks for these of the calls that
get through, every state of every run is `Lawful` (`validator_lifecycle`);
`validator_lifecycle_paid_active` is a validator that is paid out while it is
active.
-/

namespace Qau.Validators

open ValidatorManager ValidatorInfo

variable {addr : Address} {c : Call} {denominator slash : Int} {reply : Reply}

variable {vm : ValidatorManager}

/-! ## Runs with their log -/

inductive Event where
  | joined (addr : Address) (stake : Int) (genesis : Bool)
  | left (addr : Address)
  | restaked (addr : Address) (change : Int)
  | slashed (addr : Address) (amount : Int)
  | paid (addr : Address) (amount : Int)

def ValidatorManager.stakeOf (vm : ValidatorManager) (addr : Address) : Int :=
  (vm.validators[addr]?.map stake).getD 0

/-- What a call adds to the log. A stake set by `UpdateStake` counts as staked
and one set by `UpdateStakeForSlashing` as slashed, both with their sign. -/
def eventOf (vm : ValidatorManager) : Call → Reply → Option Event
  | _, .error _ => none
  | .addValidator _ addr stake _ _, .ok _ => some (.joined addr (stake.getD 0) false)
  | .addGenesisValidator _ addr stake _ _, .ok _ => some (.joined addr (stake.getD 0) true)
  | .removeValidator _ addr, .ok _ => some (.left addr)
  | .withdrawStake _ addr, .ok amount => some (.paid addr (amount.getD 0))
  | .updateStake _ addr newStake _ _, .ok _ =>
    some (.restaked addr (newStake.getD 0 - vm.stakeOf addr))
  | .updateStakeForSlashing addr newStake _ _, .ok _ =>
    some (.slashed addr (vm.stakeOf addr - newStake.getD 0))
  | .slashStake _ addr _, .ok amount => some (.slashed addr (amount.getD 0))
  | .slashStakeBasisPoints _ addr _ _, .ok amount => some (.slashed addr (amount.getD 0))
  | _, .ok _ => none

/-- A run of the manager: the log, latest event first, and the last height at
which each address was active. -/
structure Life where
  vm : ValidatorManager
  log : List Event
  lastActive : Address → Option UInt64

def Life.start : Life := ⟨newValidatorManager, [], fun _ => none⟩

def ValidatorManager.isActive (vm : ValidatorManager) (addr : Address) : Bool :=
  vm.validators[addr]?.any active

def Life.step (s : Life) (c : Call) : Life :=
  { vm := (s.vm.call c).2
    log := (eventOf s.vm c (s.vm.call c).1).toList ++ s.log
    lastActive := fun addr =>
      if (s.vm.call c).2.isActive addr then some (s.vm.call c).2.currentHeight else s.lastActive addr }

/-- How an address joined for the last time. -/
def joinedAtGenesis (addr : Address) : List Event → Bool
  | .joined a _ genesis :: log => if a = addr then genesis else joinedAtGenesis addr log
  | _ :: log => joinedAtGenesis addr log
  | [] => false

/-- Whether an address has left since it joined for the last time. -/
def hasLeft (addr : Address) : List Event → Bool
  | .left a :: log => if a = addr then true else hasLeft addr log
  | .joined a _ _ :: log => if a = addr then false else hasLeft addr log
  | _ :: log => hasLeft addr log
  | [] => false

def Event.staked (addr : Address) : Event → Int
  | .joined a amount _ | .restaked a amount => if a = addr then amount else 0
  | _ => 0

def Event.lost (addr : Address) : Event → Int
  | .slashed a amount => if a = addr then amount else 0
  | _ => 0

def Event.returned (addr : Address) : Event → Int
  | .paid a amount => if a = addr then amount else 0
  | _ => 0

def total (f : Event → Int) (log : List Event) : Int := (log.map f).sum

def Event.isJoin (addr : Address) : Event → Bool
  | .joined a _ _ => a = addr
  | _ => false

def Event.isPayment (addr : Address) : Event → Bool
  | .paid a _ => a = addr
  | _ => false

def ValidatorInfo.jailed (v : ValidatorInfo) (blockTime : Int) : Prop :=
  0 < v.jailedUntil ∧ blockTime < v.jailedUntil

instance (v : ValidatorInfo) (blockTime : Int) : Decidable (v.jailed blockTime) :=
  inferInstanceAs (Decidable (_ ∧ _))

/-- Heights and block times do not go back. -/
def Orderly (s : Life) (c : Call) : Prop :=
  match c with
  | .setCurrentHeight h => s.vm.currentHeight ≤ h
  | .setCurrentBlockTime t => s.vm.currentBlockTime ≤ t
  | _ => True

/-- A call that gets through is made only where the missing check would pass.
A `SetActive` that is refused for a low stake clears no jail term. -/
def Checked (s : Life) : Call → Reply → Prop
  | .withdrawStake _ addr, .ok _ => ∀ v ∈ s.vm.validators[addr]?,
    v.exitHeight.toNat + validatorCooldownBlocks.toNat < 2 ^ 64
  | .setActive _ addr true _, .ok _ => hasLeft addr s.log = false
  | .setActive _ addr true _, .error .insufficientStake => ∀ v ∈ s.vm.validators[addr]?,
    v.jailedUntil ≤ 0
  | .activateFromQueue addr, .ok _ => hasLeft addr s.log = false ∧
    ∀ v ∈ s.vm.validators[addr]?, joinedAtGenesis addr s.log = false →
      minStakeAmount ≤ v.stake ∧ ¬ v.jailed s.vm.currentBlockTime
  | .setJailedUntil _ addr jailedUntil, .ok _ => ∀ v ∈ s.vm.validators[addr]?, v.active →
    joinedAtGenesis addr s.log = false → jailedUntil ≤ 0 ∨ jailedUntil ≤ s.vm.currentBlockTime
  | _, _ => True

def Careful (s : Life) (c : Call) : Prop := Orderly s c ∧ Checked s c (s.vm.call c).1

instance (s : Life) (c : Call) : Decidable (Orderly s c) := by
  unfold Orderly
  split <;> infer_instance

instance (s : Life) (c : Call) (reply : Reply) : Decidable (Checked s c reply) := by
  unfold Checked
  split <;> infer_instance

instance (s : Life) (c : Call) : Decidable (Careful s c) := inferInstanceAs (Decidable (_ ∧ _))

/-! ## The invariant -/

/-- What holds of a record whose validator joined, has left, was last active
and is looked at as the first four arguments say. -/
structure RecordInv (genesis gone : Bool) (lastActive : Option UInt64) (blockTime : Int)
    (v : ValidatorInfo) : Prop where
  nonneg : 0 ≤ v.stake
  banned : v.permanentlySlashed → v.active = false
  staying : v.active → gone = false
  exit : gone = false → v.exitHeight = 0
  sound : v.active → genesis = false → minStakeAmount ≤ v.stake ∧ ¬ v.jailed blockTime
  left : v.exitHeight ≠ 0 → ∀ h ∈ lastActive, h ≤ v.exitHeight

structure Invariant (s : Life) : Prop where
  records : ∀ addr, ∀ v ∈ s.vm.validators[addr]?,
    RecordInv (joinedAtGenesis addr s.log) (hasLeft addr s.log) (s.lastActive addr)
      s.vm.currentBlockTime v
  past : ∀ addr, ∀ h ∈ s.lastActive addr, h ≤ s.vm.currentHeight
  conserved : ∀ addr, total (Event.staked addr) s.log =
    total (Event.lost addr) s.log + total (Event.returned addr) s.log + s.vm.stakeOf addr
  counted : ∀ addr, s.log.countP (Event.isPayment addr) +
    (s.vm.validators[addr]?.isSome).toNat = s.log.countP (Event.isJoin addr)

@[simp] theorem total_nil (f : Event → Int) : total f [] = 0 := rfl

@[simp] theorem total_cons (f : Event → Int) (e : Event) (log : List Event) :
    total f (e :: log) = f e + total f log := rfl

theorem stakeOf_of_some {v : ValidatorInfo} (h : vm.validators[addr]? = some v) :
    vm.stakeOf addr = v.stake := by
  simp [stakeOf, h]

theorem stakeOf_setRecord (vm : ValidatorManager) (addr a : Address) (v : ValidatorInfo) :
    (vm.setRecord addr v).stakeOf a = if addr = a then v.stake else vm.stakeOf a := by
  unfold stakeOf
  rw [getElem?_setRecord]
  split_ifs <;> rfl

theorem stakeOf_erase (vm : ValidatorManager) (addr a : Address) :
    ({ vm with validators := vm.validators.erase addr } : ValidatorManager).stakeOf a =
      if addr = a then 0 else vm.stakeOf a := by
  unfold stakeOf
  rw [Fmap.getElem?_erase]
  split_ifs <;> rfl

theorem stakeOf_setRecord_same {v v' : ValidatorInfo}
    (found : vm.validators[addr]? = some v) (same : v'.stake = v.stake) (a : Address) :
    (vm.setRecord addr v').stakeOf a = vm.stakeOf a := by
  rw [stakeOf_setRecord]
  split_ifs with h
  · subst h
    rw [same, stakeOf_of_some found]
  · rfl

theorem slashAmount_le {stake : Int} (hs : 0 ≤ stake) (hle : slash ≤ denominator)
    (hd : 0 < denominator) : slashAmount stake slash denominator ≤ stake := by
  unfold slashAmount
  split_ifs with h
  · omega
  · exact Int.ediv_le_of_le_mul hd (Int.mul_le_mul_of_nonneg_left hle hs)

theorem Slashes.denominator_pos (h : Slashes c addr slash denominator) : 0 < denominator := by
  cases h with
  | percent => decide
  | basisPoints => decide

theorem Slashes.eventOf (h : Slashes c addr slash denominator) (vm : ValidatorManager)
    (amount : Int) : eventOf vm c (.ok (some amount)) = some (.slashed addr amount) := by
  cases h <;> rfl

/-- One call moves stake between the accounts of the log and the record. -/
theorem Effect.conserved {vm' : ValidatorManager} (he : Effect vm c reply vm')
    (hnonneg : ∀ addr : Address, ∀ v ∈ vm.validators[addr]?, 0 ≤ v.stake) (a : Address) :
    total (Event.staked a) (eventOf vm c reply).toList + vm.stakeOf a =
      total (Event.lost a) (eventOf vm c reply).toList +
        total (Event.returned a) (eventOf vm c reply).toList + vm'.stakeOf a := by
  cases he with
  | refused => simp [eventOf]
  | joined caller addr absent | joinedGenesis caller addr absent =>
    have h0 : vm.stakeOf addr = 0 := by simp [stakeOf, absent]
    simp only [eventOf, Option.toList_some, total_cons, total_nil, Event.staked, Event.lost,
      Event.returned, stakeOf_setRecord]
    split_ifs with h
    · subst h
      simp [h0]
    · simp
  | paid caller addr found =>
    simp only [eventOf, Option.toList_some, total_cons, total_nil, Event.staked, Event.lost,
      Event.returned, stakeOf_erase]
    split_ifs with h
    · subst h
      simp [stakeOf_of_some found]
    · simp
  | restaked caller addr found nonneg | penalized addr found nonneg =>
    simp only [eventOf, Option.toList_some, total_cons, total_nil, Event.staked, Event.lost,
      Event.returned, stakeOf_setRecord]
    split_ifs with h
    · subst h
      simp [ValidatorInfo.setStake]
    · simp
  | slashed slashes found range =>
    have hle := slashAmount_le (hnonneg _ _ found) range.2 slashes.denominator_pos
    simp only [slashes.eventOf, Option.toList_some, total_cons, total_nil, Event.staked, Event.lost,
      Event.returned, stakeOf_setRecord, if_neg (not_lt.mpr (sub_nonneg.mpr hle))]
    split_ifs with h
    · subst h
      simp [ValidatorInfo.setStake, stakeOf_of_some found]
    · simp
  | activated caller addr found | unjailed caller addr found =>
    simp [eventOf, stakeOf_setRecord_same found, clearJail_stake]
  | left caller addr found | deactivated caller addr found | jailed caller addr found
  | banned caller addr found | queued addr found | pending addr found =>
    simp [eventOf, stakeOf_setRecord_same found, Event.staked, Event.lost, Event.returned]
  | pendingAbsent => simp [eventOf]
  | height | time | registered | unregistered => simp [eventOf]; rfl

/-- A payment ends a registration and a join begins one. -/
theorem Effect.counted {vm' : ValidatorManager} (he : Effect vm c reply vm') (a : Address) :
    (eventOf vm c reply).toList.countP (Event.isPayment a) + (vm'.validators[a]?.isSome).toNat =
      (eventOf vm c reply).toList.countP (Event.isJoin a) + (vm.validators[a]?.isSome).toNat := by
  have hsame : ∀ {addr : Address} {v v' : ValidatorInfo}, vm.validators[addr]? = some v →
      (vm.setRecord addr v').validators[a]?.isSome = vm.validators[a]?.isSome := by
    intro addr v v' found
    rw [getElem?_setRecord]
    split_ifs with h
    · subst h
      rw [found]
      rfl
    · rfl
  cases he with
  | refused => simp [eventOf]
  | joined caller addr absent | joinedGenesis caller addr absent =>
    by_cases h : addr = a
    · subst h
      simp [eventOf, Event.isPayment, Event.isJoin, getElem?_setRecord, absent]
    · simp [eventOf, Event.isPayment, Event.isJoin, getElem?_setRecord, h]
  | paid caller addr found =>
    by_cases h : addr = a
    · subst h
      simp [eventOf, Event.isPayment, Event.isJoin, found]
    · simp [eventOf, Event.isPayment, Event.isJoin, Fmap.getElem?_erase, h]
  | slashed slashes found =>
    simp [slashes.eventOf, hsame found, Event.isPayment, Event.isJoin]
  | restaked caller addr found | left caller addr found | activated caller addr found
  | unjailed caller addr found | deactivated caller addr found | jailed caller addr found
  | banned caller addr found | penalized addr found | queued addr found | pending addr found =>
    simp [eventOf, hsame found, Event.isPayment, Event.isJoin]
  | pendingAbsent => simp [eventOf]
  | height | time | registered | unregistered =>
    simp [eventOf, setCurrentHeight, setCurrentBlockTime,
      registerSystemCaller, unregisterSystemCaller]

variable {vm' : ValidatorManager} {a : Address} {v v' : ValidatorInfo}

section Records

variable {genesis gone : Bool} {lastActive : Option UInt64} {blockTime : Int} {v v' : ValidatorInfo}

/-- An inactive validator only has to keep its stake and exit height. -/
theorem RecordInv.of_inactive (hi : RecordInv genesis gone lastActive blockTime v)
    (hstake : 0 ≤ v'.stake) (hinactive : v'.active = false) (hexit : v'.exitHeight = v.exitHeight) :
    RecordInv genesis gone lastActive blockTime v' where
  nonneg := hstake
  banned _ := hinactive
  staying h := by simp [hinactive] at h
  exit h := hexit.trans (hi.exit h)
  sound h := by simp [hinactive] at h
  left := by
    rw [hexit]
    exact hi.left

theorem RecordInv.of_active (hstake : 0 ≤ v'.stake) (hbanned : v'.permanentlySlashed = false)
    (hgone : gone = false) (hexit : v'.exitHeight = 0)
    (hsound : genesis = false → minStakeAmount ≤ v'.stake ∧ ¬ v'.jailed blockTime) :
    RecordInv genesis gone lastActive blockTime v' where
  nonneg := hstake
  banned h := by simp [hbanned] at h
  staying _ := hgone
  exit _ := hexit
  sound _ := hsound
  left h := absurd hexit h

theorem RecordInv.setStake (hi : RecordInv genesis gone lastActive blockTime v) {n : Int} (hn : 0 ≤ n)
    (t : Int) : RecordInv genesis gone lastActive blockTime { v.setStake n with lastStakeChange := t } := by
  by_cases hactive : (v.setStake n).active = true
  · obtain ⟨hv, hmin⟩ : v.active = true ∧ minStakeAmount ≤ n := by
      simpa [ValidatorInfo.setStake] using hactive
    have hbanned : v.permanentlySlashed = false := by
      by_contra h
      simp [hi.banned (by simpa using h)] at hv
    exact .of_active hn hbanned (hi.staying hv) (hi.exit (hi.staying hv)) fun hg => ⟨hmin, (hi.sound hv hg).2⟩
  · exact hi.of_inactive hn (by simpa using hactive) rfl

theorem ValidatorInfo.clearJail_eq (v : ValidatorInfo) :
    v.clearJail = { v with jailedUntil := min v.jailedUntil 0 } := by
  unfold clearJail
  split_ifs with h
  · rw [min_eq_right h.le]
  · rw [min_eq_left (not_lt.mp h)]

theorem ValidatorInfo.not_jailed_clearJail (v : ValidatorInfo) (blockTime : Int) :
    ¬ ({ v with jailedUntil := min v.jailedUntil 0 } : ValidatorInfo).jailed blockTime := by
  unfold jailed
  simp

theorem RecordInv.later (hi : RecordInv genesis gone lastActive blockTime v) {t : Int}
    (ht : blockTime ≤ t) : RecordInv genesis gone lastActive t v where
  nonneg := hi.nonneg
  banned := hi.banned
  staying := hi.staying
  exit := hi.exit
  sound h hg := ⟨(hi.sound h hg).1, fun hj => (hi.sound h hg).2 ⟨hj.1, ht.trans_lt hj.2⟩⟩
  left := hi.left

/-- The height of an active validator does not matter for its exit. -/
theorem RecordInv.touch (hi : RecordInv genesis gone lastActive blockTime v) (h : UInt64) :
    RecordInv genesis gone (if v.active then some h else lastActive) blockTime v := by
  split_ifs with hv
  · exact ⟨hi.nonneg, hi.banned, hi.staying, hi.exit, hi.sound,
      fun hexit => absurd (hi.exit (hi.staying hv)) hexit⟩
  · exact hi

end Records

variable {s : Life}

theorem Invariant.setRecord (hi : Invariant s)
    (h : (s.vm.setRecord addr v').validators[a]? = some v)
    (hv' : RecordInv (joinedAtGenesis addr s.log) (hasLeft addr s.log) (s.lastActive addr)
      s.vm.currentBlockTime v') :
    RecordInv (joinedAtGenesis a s.log) (hasLeft a s.log) (s.lastActive a)
      s.vm.currentBlockTime v := by
  rw [getElem?_setRecord] at h
  split_ifs at h with ha
  · subst ha
    obtain rfl := Option.some.inj h
    exact hv'
  · exact hi.records a v h

theorem Invariant.join (hi : Invariant s) {stake : Int} {genesis : Bool}
    (h : (s.vm.setRecord addr v').validators[a]? = some v)
    (hv' : RecordInv genesis false (s.lastActive addr) s.vm.currentBlockTime v') :
    RecordInv (joinedAtGenesis a (.joined addr stake genesis :: s.log))
      (hasLeft a (.joined addr stake genesis :: s.log)) (s.lastActive a)
      s.vm.currentBlockTime v := by
  rw [getElem?_setRecord] at h
  unfold joinedAtGenesis hasLeft
  split_ifs at h ⊢ with ha
  · subst ha
    obtain rfl := Option.some.inj h
    exact hv'
  · exact hi.records a v h

theorem Effect.records (he : Effect s.vm c reply vm') (hi : Invariant s) (ho : Orderly s c)
    (hc : Checked s c reply) (a : Address) (w : ValidatorInfo) (h : vm'.validators[a]? = some w) :
    RecordInv (joinedAtGenesis a ((eventOf s.vm c reply).toList ++ s.log))
      (hasLeft a ((eventOf s.vm c reply).toList ++ s.log)) (s.lastActive a)
      vm'.currentBlockTime w := by
  cases he with
  | refused => simpa [eventOf] using hi.records a w h
  | joined caller addr absent enough =>
    have hpos : 0 ≤ minStakeAmount := by decide
    exact hi.join h ⟨hpos.trans enough, fun _ => rfl, fun _ => rfl, fun _ => rfl, by simp, by simp⟩
  | joinedGenesis caller addr absent nonneg =>
    exact hi.join h (.of_active nonneg rfl rfl rfl (by simp))
  | @left caller addr v found staying =>
    have hv := hi.records addr v found
    rw [getElem?_setRecord] at h
    simp only [eventOf, Option.toList_some, List.singleton_append, joinedAtGenesis, hasLeft]
    split_ifs at h ⊢ with ha
    · subst ha
      obtain rfl := Option.some.inj h
      exact ⟨hv.nonneg, fun _ => rfl, by simp, by simp, by simp, fun _ => hi.past addr⟩
    · exact hi.records a w h
  | paid caller addr found =>
    simp only [Fmap.getElem?_erase] at h
    split_ifs at h
    exact hi.records a w h
  | restaked caller addr found nonneg | penalized addr found nonneg =>
    exact hi.setRecord h ((hi.records _ _ found).setStake nonneg _)
  | slashed slashes found range =>
    rw [slashes.eventOf]
    refine hi.setRecord h ((hi.records _ _ found).setStake ?_ _)
    split_ifs with hneg
    · exact le_rfl
    · exact not_lt.mp hneg
  | @activated caller addr clock v found unslashed enough =>
    have hv := hi.records addr v found
    rw [clearJail_eq] at h
    refine hi.setRecord h (.of_active hv.nonneg unslashed hc (hv.exit hc) fun _ => ⟨enough, ?_⟩)
    exact not_jailed_clearJail v _
  | @unjailed caller addr clock v found low =>
    have hv := hi.records addr v found
    rw [clearJail_eq] at h
    refine hi.setRecord h ⟨hv.nonneg, hv.banned, hv.staying, hv.exit, fun ha hg => ?_, hv.left⟩
    exact ⟨(hv.sound ha hg).1, not_jailed_clearJail v _⟩
  | deactivated caller addr found | banned caller addr found =>
    have hv := hi.records _ _ found
    exact hi.setRecord h (hv.of_inactive hv.nonneg rfl rfl)
  | @queued addr v found unslashed =>
    have hv := hi.records addr v found
    exact hi.setRecord h (.of_active hv.nonneg unslashed hc.1 (hv.exit hc.1) (hc.2 v found))
  | pending addr found =>
    have hv := hi.records _ _ found
    exact hi.setRecord h ⟨hv.nonneg, hv.banned, hv.staying, hv.exit, hv.sound, hv.left⟩
  | pendingAbsent => exact hi.records a w h
  | @jailed caller addr jailedUntil v found =>
    have hv := hi.records addr v found
    refine hi.setRecord h ⟨hv.nonneg, hv.banned, hv.staying, hv.exit, fun ha hg => ?_, hv.left⟩
    refine ⟨(hv.sound ha hg).1, fun hj => ?_⟩
    rcases hc v found ha hg with hle | hle
    · exact absurd hj.1 (not_lt.mpr hle)
    · exact absurd hj.2 (not_lt.mpr hle)
  | time t => exact (hi.records a w h).later ho
  | height | registered | unregistered => exact hi.records a w h

theorem Effect.height_le (he : Effect s.vm c reply vm') (hc : Orderly s c) :
    s.vm.currentHeight ≤ vm'.currentHeight := by
  cases he with
  | height h => exact hc
  | _ => exact UInt64.le_refl _

theorem total_append (f : Event → Int) (log log' : List Event) :
    total f (log ++ log') = total f log + total f log' := by
  simp [total]

theorem invariant_step (s : Life) (c : Call) (hi : Invariant s) (hc : Careful s c) :
    Invariant (s.step c) := by
  have he := call_effect s.vm c
  constructor
  · intro addr v hv
    have hactive : (s.vm.call c).2.isActive addr = v.active := by
      have hv' : (s.vm.call c).2.validators[addr]? = some v := hv
      rw [isActive, hv', Option.any_some]
    show RecordInv _ _ (if (s.vm.call c).2.isActive addr then _ else _) _ v
    rw [hactive]
    exact (he.records hi hc.1 hc.2 addr v hv).touch _
  · intro addr h hh
    simp only [Life.step] at hh
    split_ifs at hh
    · cases hh
      exact UInt64.le_refl _
    · exact UInt64.le_trans (hi.past addr h hh) (he.height_le hc.1)
  · intro addr
    have hcall := he.conserved (fun a v hv => (hi.records a v hv).nonneg) addr
    have hold := hi.conserved addr
    simp only [Life.step, total_append]
    omega
  · intro addr
    have hcall := he.counted addr
    have hold := hi.counted addr
    simp only [Life.step, List.countP_append]
    omega

theorem invariant_start : Invariant Life.start where
  records addr v hv := by simp [Life.start, newValidatorManager] at hv
  past addr h hh := by simp [Life.start] at hh
  conserved addr := by simp [Life.start, newValidatorManager, stakeOf]
  counted addr := by simp [Life.start, newValidatorManager]

/-! ## The lifecycle -/

/-- What is asked of a state of a run. -/
structure Lawful (s : Life) : Prop where
  sound : ∀ addr, ∀ v ∈ s.vm.validators[addr]?, v.active → joinedAtGenesis addr s.log = false →
    minStakeAmount ≤ v.stake ∧ v.permanentlySlashed = false ∧
      ¬ v.jailed s.vm.currentBlockTime ∧ v.exitHeight = 0 ∧ hasLeft addr s.log = false
  /-- Each registration is paid out at most once, and then it has ended. -/
  once : ∀ addr, s.log.countP (Event.isPayment addr) + (s.vm.validators[addr]?.isSome).toNat =
    s.log.countP (Event.isJoin addr)
  conserved : ∀ addr, total (Event.staked addr) s.log =
    total (Event.lost addr) s.log + total (Event.returned addr) s.log + s.vm.stakeOf addr

/-- What is asked of a call in a state. -/
structure LawfulCall (s : Life) (c : Call) : Prop where
  withdrawal : ∀ caller addr amount, c = .withdrawStake caller addr →
    (s.vm.call c).1 = .ok amount →
      ∃ v, s.vm.validators[addr]? = some v ∧ amount = some v.stake ∧ v.active = false ∧
        ∀ h ∈ s.lastActive addr,
          h.toNat + validatorCooldownBlocks.toNat ≤ s.vm.currentHeight.toNat
  error : ∀ e, (s.vm.call c).1 = .error e →
    ∀ addr : Address, (s.vm.call c).2.validators[addr]? = s.vm.validators[addr]?

theorem Invariant.lawful (hi : Invariant s) : Lawful s where
  sound addr v hv hactive hg := by
    have hr := hi.records addr v hv
    have hbanned : v.permanentlySlashed = false := by
      by_contra h
      simp [hr.banned (by simpa using h)] at hactive
    exact ⟨(hr.sound hactive hg).1, hbanned, (hr.sound hactive hg).2, hr.exit (hr.staying hactive),
      hr.staying hactive⟩
  once := hi.counted
  conserved := hi.conserved

/-- The cool-down of an exit that does not wrap lies after the last activity. -/
theorem Invariant.cooled (hi : Invariant s) (found : s.vm.validators[addr]? = some v)
    (exiting : v.exitHeight ≠ 0)
    (hwrap : v.exitHeight.toNat + validatorCooldownBlocks.toNat < 2 ^ 64)
    (expired : ¬ s.vm.currentHeight < v.exitHeight + validatorCooldownBlocks) :
    v.active = false ∧ ∀ h ∈ s.lastActive addr,
      h.toNat + validatorCooldownBlocks.toNat ≤ s.vm.currentHeight.toNat := by
  have hr := hi.records addr v found
  have hend : (v.exitHeight + validatorCooldownBlocks).toNat =
      v.exitHeight.toNat + validatorCooldownBlocks.toNat := by
    rw [UInt64.toNat_add, Nat.mod_eq_of_lt hwrap]
  refine ⟨?_, fun h hh => ?_⟩
  · by_contra hactive
    exact exiting (hr.exit (hr.staying (by simpa using hactive)))
  · have hle := UInt64.le_iff_toNat_le.mp (hr.left exiting h hh)
    have hcool := UInt64.le_iff_toNat_le.mp (UInt64.not_lt.mp expired)
    omega

theorem Invariant.lawfulCall (hi : Invariant s) (c : Call) (hc : Careful s c) : LawfulCall s c := by
  have he := call_effect s.vm c
  have hk := hc.2
  constructor
  · intro caller addr amount hcall hreply
    subst hcall
    rw [hreply] at he hk
    generalize (s.vm.call (.withdrawStake caller addr)).2 = vm' at he
    cases he with
    | paid _ _ found exiting expired =>
      exact ⟨_, found, rfl, hi.cooled found exiting (hk _ found) expired⟩
    | slashed slashes => cases slashes
  · intro e hreply addr
    rw [hreply] at he hk
    generalize (s.vm.call c).2 = vm' at he ⊢
    cases he with
    | refused => rfl
    | @unjailed caller a clock v found low =>
      have hjail : ¬ 0 < v.jailedUntil := not_lt.mpr (hk v found)
      rw [getElem?_setRecord, clearJail, if_neg hjail]
      split_ifs with ha
      · rw [← ha, found]
      · rfl

/-- In every run of careful calls, an active validator that did not join at
genesis has the minimum stake, is neither banned nor jailed and has not left; a
withdrawal pays the current stake, once, after the cool-down without
activity; what was staked is what was slashed, returned or is still there;
and an error changes no record. -/
theorem validator_lifecycle {s : Life} (h : Reachable Life.step Careful Life.start s) :
    Lawful s ∧ ∀ c, Careful s c → LawfulCall s c := by
  have hi : Invariant s := h.invariant invariant_start invariant_step
  exact ⟨hi.lawful, hi.lawfulCall⟩

/-- A validator of the examples. -/
def someone : Address := ⟨List.replicate 20 1, rfl⟩

/-- A validator joins, is activated, leaves and is paid out. -/
def orderlyLife : List Call :=
  [.addValidator someone someone (some minStakeAmount) 500 0, .activateFromQueue someone,
    .setCurrentHeight 100, .removeValidator someone someone, .setCurrentHeight 356,
    .withdrawStake someone someone]

theorem validator_lifecycle_orderly : Allowed Life.step Careful Life.start orderlyLife ∧
      Lawful (orderlyLife.foldl Life.step Life.start) ∧
      total (Event.returned someone) (orderlyLife.foldl Life.step Life.start).log = minStakeAmount := by
  have hallowed : Allowed Life.step Careful Life.start orderlyLife := by decide +kernel
  exact ⟨hallowed, (validator_lifecycle (Reachable.init.foldl hallowed)).1, by decide +kernel⟩

/-- The same with a return to activity during the cool-down. -/
def returningLife : List Call :=
  [.addValidator someone someone (some minStakeAmount) 500 0, .activateFromQueue someone,
    .setCurrentHeight 100, .removeValidator someone someone, .setActive someone someone true 0,
    .setCurrentHeight 356]

/-- The heights are in order, yet an exiting validator is active and is paid
out without any cool-down. -/
theorem validator_lifecycle_paid_active : Allowed Life.step Orderly Life.start returningLife ∧
      ¬ Lawful (returningLife.foldl Life.step Life.start) ∧
      ¬ LawfulCall (returningLife.foldl Life.step Life.start) (.withdrawStake someone someone) := by
  have hrecord : (returningLife.foldl Life.step Life.start).vm.validators[someone]? =
      some ⟨minStakeAmount, true, 500, 0, false, 0, 0, false, 100, true⟩ := by decide +kernel
  refine ⟨by decide +kernel, fun h => ?_, fun h => ?_⟩
  · have hsound := h.sound someone _ hrecord rfl (by decide +kernel)
    exact absurd hsound.2.2.2.1 (by decide)
  · obtain ⟨v, hv, -, hactive, -⟩ := h.withdrawal someone someone (some minStakeAmount) rfl
      (by decide +kernel)
    rw [hrecord] at hv
    cases hv
    cases hactive

end Qau.Validators
