import Qau.PoolDecision
import Qau.Transition

/-!
# The representation of the pool over whole runs

A run of the pool is a sequence of calls, with the clock and the map orders
of each call, and of changes to what the pool refers to. In every run whose
insertions are careful the five structures hold the same transactions, the
heaps are in order and the limits are kept (`pool_representation`). An
insertion is careful if a full pool does not evict the only transaction of
the same sender (`Detached`), if `AddVerified` does not refuse a sender
without a list (`Blocked`), and if the tie-breaks of the price queue do not
run in a circle (`RanksOn`): equal prices of one sender are compared by
nonce, of two senders by hash, and the two together need not be an order.
-/

namespace Qau.Txpool

open HeapInterface TxPool

/-- The clock and the map orders of a call. -/
structure Env where
  now : Int
  hashes : RangeOrder Hash
  senders : RangeOrder Address

inductive Call where
  | add (tx : Option Transaction)
  | batchAdd (txs : List (Option Transaction))
  | addVerified (tx : Option Transaction)
  | remove (hash : Hash)
  | removeConfirmed (hashes : List Hash)
  | setState (state : Option StateReader)
  | cleanup
  | selectTransactions (gasLimit : UInt64)
  /-- A change outside the pool: to the state behind the reader, to the
  validator, the price bump or the commitments. -/
  | outside (validator : Option TxValidator) (state : Option StateReader)
      (priceBumpPercent : Int) (commitReveal : Option CommitRevealManager)

namespace TxPool
variable (sha3 : Bytes → Hash)

/-- The pool after a call. -/
def step (p : TxPool) (e : Env × Call) : TxPool :=
  match e.2 with
  | .add tx => (p.add sha3 e.1.hashes e.1.senders e.1.now tx).2
  | .batchAdd txs => (p.batchAdd sha3 e.1.hashes e.1.senders e.1.now txs).2
  | .addVerified tx => (p.addVerified sha3 e.1.now tx).2
  | .remove hash => p.remove sha3 hash
  | .removeConfirmed hashes => p.removeConfirmed sha3 hashes
  | .setState state => p.setState sha3 e.1.senders state
  | .cleanup =>
    if p.stopped then p else p.cleanupZombieTransactions sha3 e.1.hashes e.1.senders e.1.now
  | .selectTransactions gasLimit =>
    (p.selectTransactions sha3 e.1.senders e.1.now gasLimit).2
  | .outside v s b m =>
    { p with validator := v, state := s, priceBumpPercent := b, commitReveal := m }

/-- An entry that the insertion loop of a batch takes without harm. -/
def CarefulEntry (p : TxPool) (tx : Transaction) : Prop :=
  ¬ Detached p tx ∧ RanksOn (pricedLess sha3) (p.priced.items ++ [tx])

/-- Every valid entry of a batch is careful when its turn comes. -/
def CarefulEntries (now : Int) : TxPool → List (Except String Transaction) → Prop
  | _, [] => True
  | p, .error _ :: rest => CarefulEntries now p rest
  | p, .ok tx :: rest => CarefulEntry sha3 p tx ∧ CarefulEntries now (p.addEntry sha3 now tx).2 rest

/-- The entries of a batch that pass validation are careful. -/
def CarefulBatch (now : Int) (p : TxPool) (txs : List (Option Transaction)) : Prop :=
  ∀ v ∈ p.validator,
    CarefulEntries sha3 now (p.validated sha3 v (txs.take maxValidationBatch)).2
      (p.validated sha3 v (txs.take maxValidationBatch)).1

/-- The calls that insert do so carefully; the others are free. -/
def Careful (p : TxPool) (e : Env × Call) : Prop :=
  match e.2 with
  | .add tx => CarefulBatch sha3 e.1.now p [tx]
  | .batchAdd txs => CarefulBatch sha3 e.1.now p txs
  | .addVerified entry => ∀ tx ∈ entry, CarefulEntry sha3 p tx ∧
      (p.pending[tx.fromAddr]? = none → ¬ Blocked p tx)
  | _ => True

end TxPool

/-- The five structures of the pool hold the same transactions, each once;
the lists are not empty and belong to their senders; both heaps are in
order; the limits are kept. -/
structure Represents (sha3 : Bytes → Hash) (p : TxPool) : Prop where
  index : ∀ (h : Hash) tx, p.all[h]? = some tx → txHash sha3 tx = h
  timestamps : ∀ h : Hash, p.txTimestamps[h]?.isSome = p.all[h]?.isSome
  queue : ∀ tx, tx ∈ p.priced.items ↔ p.all[txHash sha3 tx]? = some tx
  queue_once : (p.priced.items.map (txHash sha3)).Nodup
  positions : ∀ (h : Hash) i,
    p.priced.index[h]? = some i ↔ ∃ tx, p.priced.items[i]? = some tx ∧ txHash sha3 tx = h
  eviction : ∀ tx, tx ∈ p.evictionHeap ↔ p.all[txHash sha3 tx]? = some tx
  eviction_once : (p.evictionHeap.map (txHash sha3)).Nodup
  lists : ∀ tx, p.all[txHash sha3 tx]? = some tx ↔
    ∃ r, p.pending[tx.fromAddr]? = some r ∧ (p.listAt r).get tx.nonce = some tx
  lists_own : ∀ (a : Address) r (n : UInt64) tx, p.pending[a]? = some r →
    (p.listAt r).get n = some tx → tx.fromAddr = a ∧ tx.nonce = n
  lists_apart : ∀ (a b : Address) r, p.pending[a]? = some r → p.pending[b]? = some r → a = b
  lists_nonempty : ∀ (a : Address) r, p.pending[a]? = some r → (p.listAt r).len ≠ 0
  queue_order : (PriorityQueue.heap sha3).IsHeap p.priced
  eviction_order : (sliceHeap priceLess).IsHeap p.evictionHeap
  size_le : (p.all.size : Int) ≤ p.maxSize
  account_le : ∀ (a : Address) r, p.pending[a]? = some r →
    ((p.listAt r).len : Int) ≤ p.maxAccountTxs

namespace TxPool

variable {sha3 : Bytes → Hash} {p q : TxPool} {tx : Transaction}
  {now : Int} {txs : List (Option Transaction)} {entry : Option Transaction}

theorem Sound.represents (h : Sound sha3 True ∅ p) : Represents sha3 p where
  index := h.keyed
  timestamps := h.stamped
  queue := h.priced.mem
  queue_once := h.priced.nodup
  positions := h.priced.exact
  eviction := h.evict.mem
  eviction_once := h.evict.nodup
  lists := h.toListed.mem
  lists_own _ _ _ _ hr hget := h.placed hr hget
  lists_apart _ _ _ hr hr' := h.tidy.apart hr hr'
  lists_nonempty _ _ hr := h.nonempty hr nofun
  queue_order := (h.pricedOrder trivial).isHeap
  eviction_order := h.evictOrder
  size_le := h.size_le
  account_le _ _ hr := h.account_le hr

/-! ## The insertions of a batch -/

theorem Sound.addEntries {entries : List (Except String Transaction)} (h : Sound sha3 True ∅ p)
    (hadm : ∀ tx, .ok tx ∈ entries → Admissible p tx) (hcare : CarefulEntries sha3 now p entries) :
    Sound sha3 True ∅ (p.addEntries sha3 now entries).2 := by
  induction entries generalizing p with
  | nil => exact h
  | cons entry rest ih =>
    have hrest : ∀ tx, .ok tx ∈ rest → Admissible p tx := fun tx htx =>
      hadm tx (List.mem_cons_of_mem _ htx)
    cases entry with
    | error e => exact ih h hrest hcare
    | ok tx =>
      obtain ⟨⟨hatt, hord⟩, hcare⟩ := hcare
      have hsound : Sound sha3 True ∅ (p.addEntry sha3 now tx).2 :=
        h.addEntry (hadm tx (List.mem_cons_self ..)) hatt fun _ => hord
      have hadm' : ∀ tx', .ok tx' ∈ rest → Admissible (p.addEntry sha3 now tx).2 tx' := by
        intro tx' htx' state hs
        rw [h.state_addEntry] at hs
        exact hrest tx' htx' state hs
      exact ih hsound hadm' hcare

theorem admissible_of_validated {v : TxValidator} (htx : .ok tx ∈ (p.validated sha3 v txs).1) :
    Admissible (p.validated sha3 v txs).2 tx := by
  obtain ⟨verdict, -, hbind⟩ := List.mem_map.mp htx
  intro state hs
  change p.state = some state at hs
  cases verdict with
  | error e => exact absurd hbind nofun
  | ok tx' =>
    change p.revalidate tx' = .ok tx at hbind
    simp only [revalidate, hs] at hbind
    split_ifs at hbind with _ hhigh
    · cases hbind; exact hhigh
    · split at hbind
      · exact absurd hbind nofun
      · split_ifs at hbind
        cases hbind; exact hhigh

theorem Sound.batchAdd (h : Sound sha3 True ∅ p) (hashes : RangeOrder Hash)
    (senders : RangeOrder Address) (hcare : CarefulBatch sha3 now p txs) :
    Sound sha3 True ∅ (p.batchAdd sha3 hashes senders now txs).2 := by
  unfold TxPool.batchAdd
  split_ifs
  · exact h
  · exact h
  · cases hv : p.validator with
    | none => exact h
    | some v =>
      have hvalid : Sound sha3 True ∅ (p.validated sha3 v (txs.take maxValidationBatch)).2 :=
        h.congr (h.toIndexed.congr rfl rfl rfl rfl) rfl rfl rfl rfl rfl
      exact (hvalid.addEntries (fun tx htx => admissible_of_validated htx) (hcare v hv)).cleanup
        hashes senders now

theorem admissible_of_checkVerified (h : p.checkVerified entry = .ok tx) :
    entry = some tx ∧ Admissible p tx := by
  cases entry with
  | none => exact absurd h nofun
  | some tx' =>
    simp only [checkVerified] at h
    split_ifs at h
    split at h
    · exact absurd h nofun
    · split at h
      · exact absurd h nofun
      · next hs =>
        cases h
        refine ⟨rfl, fun state hstate => ?_⟩
        rw [hs] at hstate
        exact absurd hstate nofun
      · next state _ hs =>
        split_ifs at h with hhigh
        cases h
        refine ⟨rfl, fun state' hstate => ?_⟩
        rw [hs] at hstate
        cases hstate
        exact hhigh

theorem Sound.addVerified (h : Sound sha3 True ∅ p) (hcare : ∀ tx ∈ entry, CarefulEntry sha3 p tx ∧
      (p.pending[tx.fromAddr]? = none → ¬ Blocked p tx)) :
    Sound sha3 True ∅ (p.addVerified sha3 now entry).2 := by
  unfold TxPool.addVerified
  split_ifs
  · exact h
  · cases hcheck : p.checkVerified entry with
    | error e => exact h
    | ok tx =>
      obtain ⟨rfl, hadm⟩ := admissible_of_checkVerified hcheck
      obtain ⟨⟨hatt, hord⟩, hwel⟩ := hcare tx rfl
      exact h.insertVerified hadm hatt hwel fun _ => hord

/-! ## Runs -/

theorem Sound.selectTransactions {ordered : Prop} (h : Sound sha3 ordered ∅ p)
    (order : RangeOrder Address) (now : Int) (gasLimit : UInt64) :
    Sound sha3 ordered ∅ (p.selectTransactions sha3 order now gasLimit).2 := by
  unfold TxPool.selectTransactions
  split_ifs
  · exact h
  · refine Sound.foldl_of_step (fun q hash hq => hq.remove hash) ?_ _
    exact h.congr (h.toIndexed.congr rfl rfl rfl rfl) rfl rfl rfl rfl rfl

theorem sound_newTxPool (validator : Option TxValidator) (state : Option StateReader)
    (maxSize maxAccountTxs priceBumpPercent : Int) :
    Sound sha3 True ∅ (newTxPool validator state maxSize maxAccountTxs priceBumpPercent) where
  keyed _ _ h := absurd h (by simp [newTxPool])
  stamped _ := by simp [newTxPool]
  priced := ⟨⟨List.nodup_nil, fun _ => by simp [newTxPool]⟩, fun _ _ => by simp [newTxPool]⟩
  pricedOrder _ := ⟨⟨fun a ha => absurd ha (by simp [newTxPool]),
    fun a ha => absurd ha (by simp [newTxPool])⟩, fun k _ hk => absurd hk (Nat.not_lt_zero k)⟩
  evict := ⟨List.nodup_nil, fun _ => by simp [newTxPool]⟩
  evictOrder := fun k _ hk => absurd hk (Nat.not_lt_zero k)
  tidy := ⟨fun hr => absurd hr (by simp [newTxPool]), fun hr => absurd hr (by simp [newTxPool])⟩
  mem _ := by simp [newTxPool]
  placed hr := absurd hr (by simp [newTxPool])
  nonempty hr := absurd hr (by simp [newTxPool])
  size_le := by
    simp only [newTxPool, Std.ExtTreeMap.size_empty, defaultPoolSize]; split_ifs <;> omega
  account_le hr := absurd hr (by simp [newTxPool])
  account_pos := by simp only [newTxPool, defaultAccountSlots]; split_ifs <;> omega

theorem Sound.step (h : Sound sha3 True ∅ p) (e : Env × Call) (hcare : Careful sha3 p e) :
    Sound sha3 True ∅ (p.step sha3 e) := by
  obtain ⟨env, call⟩ := e
  cases call with
  | add | batchAdd => exact h.batchAdd env.hashes env.senders hcare
  | addVerified tx => exact h.addVerified hcare
  | remove hash => exact h.remove hash
  | removeConfirmed hashes => exact h.removeConfirmed hashes
  | setState state => exact h.setState env.senders state
  | cleanup =>
    simp only [TxPool.step]
    split_ifs
    · exact h
    · exact h.cleanup env.hashes env.senders env.now
  | selectTransactions gasLimit => exact h.selectTransactions env.senders env.now gasLimit
  | outside v s b m =>
    exact h.congr (h.toIndexed.congr rfl rfl rfl rfl) rfl rfl rfl rfl rfl

theorem sound_of_reachable_ordered {validator : Option TxValidator} {state : Option StateReader}
    {maxSize maxAccountTxs priceBumpPercent : Int} (h : Reachable (step sha3) (Careful sha3)
      (newTxPool validator state maxSize maxAccountTxs priceBumpPercent) p) : Sound sha3 True ∅ p :=
  h.invariant (sound_newTxPool validator state maxSize maxAccountTxs priceBumpPercent)
    fun _ e hs hok => hs.step e hok

/-- In every run whose insertions are careful the pool is well represented
after every call. -/
theorem pool_representation {validator : Option TxValidator} {state : Option StateReader}
    {maxSize maxAccountTxs priceBumpPercent : Int} (h : Reachable (step sha3) (Careful sha3)
      (newTxPool validator state maxSize maxAccountTxs priceBumpPercent) p) : Represents sha3 p :=
  (sound_of_reachable_ordered h).represents

/-! ## Runs of staking transactions -/

section
variable {α : Type} {lt : α → α → Bool} {l : List α}

instance : Decidable (RanksOn lt l) :=
  decidable_of_iff
    ((∀ a ∈ l, ∀ b ∈ l, lt a b = true → lt b a = false) ∧
      ∀ a ∈ l, ∀ b ∈ l, ∀ c ∈ l, lt a b = false → lt b c = false → lt a c = false)
    ⟨fun h => ⟨h.1, h.2⟩, fun h => ⟨h.1, h.2⟩⟩

end

instance (p : TxPool) (tx : Transaction) : Decidable (Blocked p tx) := by
  unfold Blocked; infer_instance

instance (p : TxPool) (tx : Transaction) : Decidable (Detached p tx) := by
  unfold Detached; infer_instance

instance (p : TxPool) (tx : Transaction) : Decidable (CarefulEntry sha3 p tx) := by
  unfold CarefulEntry; infer_instance

instance decidableCarefulEntries (now : Int) : (p : TxPool) →
    (entries : List (Except String Transaction)) → Decidable (CarefulEntries sha3 now p entries)
  | _, [] => inferInstanceAs (Decidable True)
  | p, .error _ :: rest => decidableCarefulEntries now p rest
  | p, .ok tx :: rest =>
    have := decidableCarefulEntries now (p.addEntry sha3 now tx).2 rest
    inferInstanceAs (Decidable (CarefulEntry sha3 p tx ∧ _))

instance (now : Int) (p : TxPool) (txs : List (Option Transaction)) :
    Decidable (CarefulBatch sha3 now p txs) := by
  unfold CarefulBatch; infer_instance

instance (p : TxPool) (e : Env × Call) : Decidable (Careful sha3 p e) := by
  unfold Careful; split <;> infer_instance

/-- A staking transaction of one of a few senders. -/
def stakeTx (sender : UInt8) (nonce : UInt64) (price value : Int) : Transaction :=
  { type := TxType.stake, nonce := nonce, fromAddr := copyInto 20 [sender],
    toAddr := some stakingAddr, value := some value, gasLimit := 50000, gasPrice := some price,
    chainID := 1 }

/-- Staking transactions and their SHA3-256 digests. -/
def stakeDigests : List (Transaction × Nat) :=
  [(stakeTx 1 0 100 1000, 0xae139744a6f8b63f4c46a7fa8c676bc3d5b2020c2ebc298a08c1751344ee0143),
    (stakeTx 1 1 200 1000, 0x06770470ea3c91ab2934f1a2c0cb3c3f1a652940d749a2fcb12cb4e922b57b3b),
    (stakeTx 2 0 50 1000, 0xa19c3b2096fd18aca0bc953eeda82983dccdfca848007a0ed357a5a6ae6e938c),
    (stakeTx 3 0 200 1000, 0x1a9d57deec02a9ea4667cd3c8a276886620f7f3835f4ab1b933f7287e19b2f5d),
    (stakeTx 1 0 150 1000, 0x518e366f4dc7b4fae66ae8df315b2ef1cfe0d5d56beedad2533473431010e439),
    (stakeTx 1 1 100 1004, 0x41b181d27d755afdc4f301fc26069edefa4480cd52b67446a42552bda8d45495),
    (stakeTx 2 0 100 1002, 0x9634eb543fb3f8efe51bd792c90b04c886b99febe64349be46a14171e94f756e)]

/-- SHA3-256 as far as those transactions are concerned. -/
def stakeSha3 (m : Bytes) : Hash :=
  let digest := (stakeDigests.find? fun e => marshalTransaction e.1 = m).elim 0 Prod.snd
  copyInto 32 (bigEndian 32 digest)

/-- A validator for the chain of those transactions; `AddVerified` does not
ask it for signatures. -/
def stakeValidator : TxValidator :=
  { blockGasLimit := 30000000, chainID := 1,
    verifyAuthorization := fun _ => some "invalid transaction signature" }

/-- A pool over fresh accounts. -/
def stakePool (maxSize : Int) : TxPool :=
  newTxPool (some stakeValidator) (some ⟨fun _ => 0, fun _ => 0⟩) maxSize 128 10

/-- The calls that add the given transactions one after the other. -/
def stakeCalls (txs : List Transaction) : List (Env × Call) :=
  txs.map fun tx => (⟨0, .sorted _, .sorted _⟩, .addVerified (some tx))

/-- A full pool of two takes in a third sender and a replacement. -/
theorem pool_representation_replaced :
    let p := (stakeCalls [stakeTx 1 0 100 1000, stakeTx 2 0 50 1000, stakeTx 3 0 200 1000,
      stakeTx 1 0 150 1000]).foldl (step stakeSha3) (stakePool 2)
    p.all.size = 2 ∧ Represents stakeSha3 p :=
  ⟨by decide +kernel, pool_representation (.foldl .init (by decide +kernel))⟩

/-- The runs that break the representation: a full pool evicts the only
transaction of the sender, whose newcomer then goes into a list nobody
finds; a full pool refuses a sender and keeps an empty list for it; and
three transactions of one price whose tie-breaks run in a circle. -/
theorem pool_representation_broken :
    ¬ Represents stakeSha3 ((stakeCalls [stakeTx 1 0 100 1000, stakeTx 1 1 200 1000]).foldl
        (step stakeSha3) (stakePool 1)) ∧
      ¬ Represents stakeSha3 ((stakeCalls [stakeTx 1 0 100 1000, stakeTx 2 0 50 1000]).foldl
        (step stakeSha3) (stakePool 1)) ∧
      ¬ Represents stakeSha3 ((stakeCalls [stakeTx 1 0 100 1000, stakeTx 1 1 100 1004,
        stakeTx 2 0 100 1002]).foldl (step stakeSha3) (stakePool 3)) := by
  refine ⟨fun h => ?_, fun h => ?_, fun h => ?_⟩
  · obtain ⟨r, hr, -⟩ := (h.lists (stakeTx 1 1 200 1000)).mp (by decide +kernel)
    have hnone : ((stakeCalls [stakeTx 1 0 100 1000, stakeTx 1 1 200 1000]).foldl
        (step stakeSha3) (stakePool 1)).pending[(stakeTx 1 1 200 1000).fromAddr]? = none := by
      decide +kernel
    exact absurd (hnone.symm.trans hr) nofun
  · exact absurd rfl (h.lists_nonempty (copyInto 20 [2]) 1 (by decide +kernel))
  · exact absurd (h.queue_order 1 (by decide) (by decide +kernel)) (by decide +kernel)

end TxPool

end Qau.Txpool
