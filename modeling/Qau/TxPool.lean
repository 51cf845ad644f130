import Qau.TxQueue

/-!
# The transaction pool

Model of `TxPool` of `txpool/pool.go`: insertion (`BatchAdd`, `Add` and
`AddVerified`) with replacement and eviction, removal, the purge of
`SetState`, the zombie cleanup and the selection for a block. The pool maps
a sender to a pointer to its list, and a call keeps using the pointer it
read first, so the lists are objects of a `Heap`. The clock, the order in
which Go ranges over a map and SHA3-256 are parameters. Mutexes, logging and
the bundler are left out.
-/

namespace Qau.Txpool

structure TxPool where
  validator : Option TxValidator
  state : Option StateReader
  all : Fmap Hash Transaction := ∅
  txTimestamps : Fmap Hash Int := ∅
  pending : Fmap Address Ref := ∅
  lists : Heap TxList := ⟨[]⟩
  priced : PriorityQueue := {}
  evictionHeap : TxPriceHeap := []
  maxSize : Int
  maxAccountTxs : Int
  priceBumpPercent : Int
  commitReveal : Option CommitRevealManager
  stopped : Bool := false

def defaultPoolSize : Int := 25000
def defaultAccountSlots : Int := 128
def defaultPriceBumpPercent : Int := 10
def maxBatchSize : Nat := 1000
def maxValidationBatch : Nat := 100

/-- `time.Hour` in nanoseconds. -/
def hour : Int := 3600 * 1000000000

def errPoolFull : String := "transaction pool is full"
def errReplaceUnderpriced : String := "replacement transaction underpriced"
def errBatchExceedsLimit : String := "batch size exceeds validation limit"
def errPoolStopped : String := "transaction pool has been stopped"
def errUnderpriced : String := "transaction gas price below minimum"
def errNoValidator : String := "transaction validator not initialized"
def errNoState : String := "txpool state not initialized; cannot validate transactions"

/-- `NewTxPoolWithFullConfig`. -/
def newTxPool (validator : Option TxValidator) (state : Option StateReader)
    (maxSize maxAccountTxs priceBumpPercent : Int) : TxPool where
  validator := validator
  state := state
  maxSize := if maxSize ≤ 0 then defaultPoolSize else maxSize
  maxAccountTxs := if maxAccountTxs ≤ 0 then defaultAccountSlots else maxAccountTxs
  priceBumpPercent := if priceBumpPercent ≤ 0 then defaultPriceBumpPercent else priceBumpPercent
  commitReveal := some {}

/-- `int64(v)`. -/
def toInt64 (v : Int) : Int := (v + 2 ^ 63) % 2 ^ 64 - 2 ^ 63

namespace TxPool
variable (sha3 : Bytes → Hash)

/-! ## The lists -/

/-- The list a pointer leads to. -/
def listAt (p : TxPool) (r : Ref) : TxList := (p.lists.read r).getD {}

def setList (p : TxPool) (r : Ref) (l : TxList) : TxPool := { p with lists := p.lists.write r l }

/-- A new empty list for a sender. -/
def newList (p : TxPool) (addr : Address) : Ref × TxPool :=
  let (r, lists) := p.lists.alloc {}
  (r, { p with lists := lists, pending := p.pending.insert addr r })

/-- The sender's list deleted if it is empty. -/
def dropEmpty (p : TxPool) (addr : Address) (r : Ref) : TxPool :=
  if (p.listAt r).len = 0 then { p with pending := p.pending.erase addr } else p

/-- The nonce taken off the sender's list, and an empty list deleted. -/
def unlist (p : TxPool) (addr : Address) (nonce : UInt64) : TxPool :=
  match p.pending[addr]? with
  | none => p
  | some r => (p.setList r ((p.listAt r).remove nonce)).dropEmpty addr r

/-! ## Removal -/

/-- A hash taken out of the index, the timestamps and both heaps. -/
def forget (p : TxPool) (hash : Hash) : TxPool :=
  { p with
    all := p.all.erase hash
    txTimestamps := p.txTimestamps.erase hash
    priced := p.priced.remove sha3 hash
    evictionHeap := p.evictionHeap.remove sha3 hash }

/-- One round of `RemoveConfirmed`, and `Remove` on a pool that runs. -/
def removeHash (p : TxPool) (hash : Hash) : TxPool :=
  match p.all[hash]? with
  | none => p
  | some tx => (p.forget sha3 hash).unlist tx.fromAddr tx.nonce

def remove (p : TxPool) (hash : Hash) : TxPool := if p.stopped then p else p.removeHash sha3 hash

def removeConfirmed (p : TxPool) (hashes : List Hash) : TxPool :=
  if p.stopped then p else hashes.foldl (removeHash sha3) p

/-- A transaction of the list at `r` removed from all structures. -/
def removeListed (r : Ref) (p : TxPool) (tx : Transaction) : TxPool :=
  let p := p.forget sha3 (txHash sha3 tx)
  p.setList r ((p.listAt r).remove tx.nonce)

/-- The stale transactions of one sender removed. -/
def purgeSender (state : StateReader) (p : TxPool) (e : Address × Ref) : TxPool :=
  let stale := (p.listAt e.2).all.filter fun tx => tx.nonce < state.getNonce e.1
  (stale.foldl (removeListed sha3 e.2) p).dropEmpty e.1 e.2

def setState (order : RangeOrder Address) (p : TxPool) (state : Option StateReader) : TxPool :=
  let p := { p with state := state }
  match state with
  | none => p
  | some state => (p.pending.range order).foldl (purgeSender sha3 state) p

/-! ## Zombie cleanup -/

def maxCleanupPerRun (p : TxPool) : Int :=
  if p.maxSize / 4 < 1000 then 1000 else p.maxSize / 4

/-- A transaction older than six hours removed, within the bound of a run. -/
def expire (now limit : Int) (c : Int × TxPool) (e : Hash × Int) : Int × TxPool :=
  if limit ≤ c.1 ∨ now - e.2 ≤ 6 * hour then c
  else
    let p := c.2.forget sha3 e.1
    (c.1 + 1,
      match c.2.all[e.1]? with
      | none => p
      | some tx => p.unlist tx.fromAddr tx.nonce)

/-- The highest nonces of a sender above the bound removed. -/
def trim (maxPerAddress : Int) (limit : Int) (c : Int × TxPool) (e : Address × Ref) :
    Int × TxPool :=
  let list := c.2.listAt e.2
  if list.len ≤ maxPerAddress ∨ limit ≤ c.1 then c
  else
    let excess := (min (list.len - maxPerAddress) (limit - c.1)).toNat
    let removed := list.all.reverse.take excess
    (c.1 + removed.length, (removed.foldl (removeListed sha3 e.2) c.2).dropEmpty e.1 e.2)

def cleanupZombieTransactions (hashes : RangeOrder Hash) (senders : RangeOrder Address) (now : Int)
    (p : TxPool) : TxPool :=
  let limit := p.maxCleanupPerRun
  let c := (p.txTimestamps.range hashes).foldl (expire sha3 now limit) (0, p)
  let maxPerAddress : Int :=
    if p.maxAccountTxs < maxPendingTxsPerAddress then p.maxAccountTxs else maxPendingTxsPerAddress
  ((c.2.pending.range senders).foldl (trim sha3 maxPerAddress limit) c).2

/-! ## Insertion -/

/-- The price that a newcomer has to exceed to evict a transaction. -/
def evictionThreshold (p : TxPool) (lowest : Transaction) : Int :=
  let price := effectiveGasPriceForSorting lowest
  price + price * toInt64 p.priceBumpPercent / 100

/-- The top of the eviction heap gone from everything but its list. -/
def popLowest (p : TxPool) (hash : Hash) : TxPool :=
  { p with
    evictionHeap := p.evictionHeap.pop
    all := p.all.erase hash
    txTimestamps := p.txTimestamps.erase hash
    priced := p.priced.remove sha3 hash }

/-- The lowest-priced transaction removed from all structures. -/
def evict (p : TxPool) (lowest : Transaction) : TxPool :=
  (p.popLowest sha3 (txHash sha3 lowest)).unlist lowest.fromAddr lowest.nonce

def evictLowest (p : TxPool) (newTx : Transaction) : Bool × TxPool :=
  match p.evictionHeap.peek with
  | none => (false, p)
  | some lowest =>
    if effectiveGasPriceForSorting newTx ≤ p.evictionThreshold lowest then (false, p)
    else (true, p.evict sha3 lowest)

/-- The price that replaces a transaction, rounded up. -/
def replaceThreshold (p : TxPool) (old : Transaction) : Int :=
  (effectiveGasPriceForSorting old * toInt64 (100 + p.priceBumpPercent) + 99) / 100

/-- The price check of `tryReplace`. -/
def outbids (p : TxPool) (old newTx : Transaction) : Bool :=
  p.replaceThreshold old ≤ effectiveGasPriceForSorting newTx ||
    (effectiveGasPriceForSorting old = 0 && 0 < effectiveGasPriceForSorting newTx)

def tryReplace (p : TxPool) (r : Ref) (newTx : Transaction) : Bool × TxPool :=
  match (p.listAt r).get newTx.nonce with
  | none => (false, p)
  | some old => if p.outbids old newTx then (true, p.removeListed sha3 r old) else (false, p)

/-- The list with the transaction, unless its nonce is too far ahead. -/
def addToList (p : TxPool) (l : TxList) (tx : Transaction) : Except String TxList :=
  match p.state with
  | some state => l.addWithStateNonce tx (state.getNonce tx.fromAddr)
  | none => l.add tx

/-- The insertion into the maps, the list at `r` and the heaps. -/
def place (now : Int) (p : TxPool) (r : Ref) (tx : Transaction) : Option String × TxPool :=
  let hash := txHash sha3 tx
  let p :=
    { p with all := p.all.insert hash tx, txTimestamps := p.txTimestamps.insert hash now }
  match p.addToList (p.listAt r) tx with
  | .error e =>
    (some e, { p with all := p.all.erase hash, txTimestamps := p.txTimestamps.erase hash })
  | .ok l =>
    (none,
      { p.setList r l with
        priced := p.priced.push sha3 tx, evictionHeap := p.evictionHeap.push tx })

/-- The commitment of a `TxTypeCommit` transaction registered. -/
def register (p : TxPool) (tx : Transaction) : Option String × TxPool :=
  match p.commitReveal with
  | none => (none, p)
  | some m =>
    if tx.type = TxType.commit then
      let (err, m) := m.registerCommitment (copyInto 32 tx.data) tx.fromAddr
      (err, { p with commitReveal := some m })
    else (none, p)

/-- Room for a transaction in a full pool. -/
def makeRoom (p : TxPool) (isReplacement : Bool) (tx : Transaction) : Bool × TxPool :=
  if !isReplacement ∧ p.maxSize ≤ p.all.size then p.evictLowest sha3 tx else (true, p)

/-- The sender's list, created at its first transaction. -/
def ensureList (p : TxPool) (addr : Address) : Option Ref → Ref × TxPool
  | some r => (r, p)
  | none => p.newList addr

/-- The place of an entry in its sender's list: a replacement has to outbid
the old transaction, a new nonce needs a slot. -/
def enterList (now : Int) (p : TxPool) (isReplacement : Bool) (r : Ref) (tx : Transaction) :
    Option String × TxPool :=
  if isReplacement then
    match p.tryReplace sha3 r tx with
    | (false, p) => (some errReplaceUnderpriced, p)
    | (true, p) => p.place sha3 now r tx
  else if p.maxAccountTxs ≤ (p.listAt r).len then (some errPoolFull, p)
  else p.place sha3 now r tx

/-- One round of the insertion loop of `BatchAdd`. -/
def addEntry (now : Int) (p : TxPool) (tx : Transaction) : Option String × TxPool :=
  if p.all.contains (txHash sha3 tx) then (none, p)
  else
    let list := p.pending[tx.fromAddr]?
    let isReplacement := list.any fun r => ((p.listAt r).get tx.nonce).isSome
    match p.makeRoom sha3 isReplacement tx with
    | (false, p) => (some errPoolFull, p)
    | (true, p) =>
      let (r, p) := p.ensureList tx.fromAddr list
      match p.enterList sha3 now isReplacement r tx with
      | (some e, p) => (some e, p)
      | (none, p) => p.register tx

/-- The insertion loop of `BatchAdd`, over what validation left of every
entry. -/
def addEntries (now : Int) (p : TxPool) :
    List (Except String Transaction) → List (Option String) × TxPool
  | [] => ([], p)
  | .error e :: rest =>
    let (errs, p) := addEntries now p rest
    (some e :: errs, p)
  | .ok tx :: rest =>
    let (err, p) := p.addEntry sha3 now tx
    let (errs, p) := addEntries now p rest
    (err :: errs, p)

/-! ## Validation of a batch -/

/-- The checks before the write lock for one entry; a reveal check may drop
an expired commitment. -/
def preValidate (p : TxPool) (v : TxValidator) (m : Option CommitRevealManager)
    (index : Nat) : Option Transaction → Except String Transaction × Option CommitRevealManager
  | none => (.error s!"transaction at index {index} is nil", m)
  | some tx =>
    match p.state with
    | none => (.error errNoState, m)
    | some state =>
      if state.getNonce tx.fromAddr + maxNonceGap < tx.nonce then (.error errNonceTooHigh, m)
      else
        match v.validateWithState tx state, m with
        | some e, _ => (.error e, m)
        | none, none => (.ok tx, m)
        | none, some m =>
          if tx.type = TxType.transfer ∧ m.requiresCommitment tx.value then
            match m.checkReveal sha3 tx with
            | (some e, m) =>
              let value := (tx.value.getD 0).repr
              (.error s!"{errCommitmentRequired} (value={value}): {e}", some m)
            | (none, m) => (.ok tx, some m)
          else (.ok tx, some m)

def preValidateAll (p : TxPool) (v : TxValidator) :
    Option CommitRevealManager → Nat → List (Option Transaction) →
      List (Except String Transaction) × Option CommitRevealManager
  | m, _, [] => ([], m)
  | m, index, tx :: rest =>
    let (verdict, m) := p.preValidate sha3 v m index tx
    let (verdicts, m) := preValidateAll p v m (index + 1) rest
    (verdict :: verdicts, m)

def errRecheckLow (nonce stateNonce : UInt64) : String :=
  s!"nonce too low: tx nonce {nonce} < state nonce {stateNonce} (TOCTOU revalidation)"

def errRecheckHigh (nonce stateNonce : UInt64) : String :=
  s!"nonce {nonce} too far ahead of state nonce {stateNonce} (max gap {maxNonceGap}, TOCTOU revalidation)"

def errRecheckBalance (balance cost : Int) : String :=
  s!"{errInsufficientBalance}: balance {balance} < cost {cost} (TOCTOU revalidation)"

/-- The checks repeated under the write lock. -/
def revalidate (p : TxPool) (tx : Transaction) : Except String Transaction :=
  match p.state with
  | none => .ok tx
  | some state =>
    let stateNonce := state.getNonce tx.fromAddr
    if tx.nonce < stateNonce then .error (errRecheckLow tx.nonce stateNonce)
    else if stateNonce + maxNonceGap < tx.nonce then .error (errRecheckHigh tx.nonce stateNonce)
    else if tx.type = TxType.privacy then .ok tx
    else
      match TxValidator.calculateTxCost tx with
      | .error e => .error e
      | .ok cost =>
        if state.getBalance tx.fromAddr < cost then
          .error (errRecheckBalance (state.getBalance tx.fromAddr) cost)
        else .ok tx

/-- The pool with the commitments as validation left them, and the entries
for the insertion loop. -/
def validated (p : TxPool) (v : TxValidator) (txs : List (Option Transaction)) :
    List (Except String Transaction) × TxPool :=
  let (verdicts, m) := p.preValidateAll sha3 v p.commitReveal 0 txs
  (verdicts.map fun verdict => verdict.bind p.revalidate, { p with commitReveal := m })

def batchAdd (hashes : RangeOrder Hash) (senders : RangeOrder Address) (now : Int) (p : TxPool)
    (txs : List (Option Transaction)) : List (Option String) × TxPool :=
  if p.stopped then (txs.map fun _ => some errPoolStopped, p)
  else if maxBatchSize < txs.length then (txs.map fun _ => some errBatchExceedsLimit, p)
  else
    match p.validator with
    | none => (txs.map fun _ => some errNoValidator, p)
    | some v =>
      let (entries, p) := p.validated sha3 v (txs.take maxValidationBatch)
      let (errs, p) := p.addEntries sha3 now entries
      (errs ++ (txs.drop maxValidationBatch).map fun _ => some errBatchExceedsLimit,
        p.cleanupZombieTransactions sha3 hashes senders now)

def add (hashes : RangeOrder Hash) (senders : RangeOrder Address) (now : Int) (p : TxPool)
    (tx : Option Transaction) : Option String × TxPool :=
  let (errs, p) := p.batchAdd sha3 hashes senders now [tx]
  (errs.head?.join, p)

/-! ## Insertion without signature check -/

def errNotStaking (t : TxType) : String :=
  let name := ["transfer", "contract", "create", "stake", "unstake", "dynamic_fee", "blob",
    "multisig", "privacy", "commit", "validator_key"].getD t.toNat "unknown"
  s!"AddVerified: only stake/unstake transactions allowed (got {name}); use Add for full signature verification"

def errNoValidatorVerified : String := "AddVerified: transaction validator not initialized"

def errBasicFields (e : String) : String := s!"AddVerified: basic field validation failed: {e}"

def errTooFarAhead (nonce stateNonce : UInt64) : String :=
  s!"nonce {nonce} too far ahead of state nonce {stateNonce} (max gap {maxNonceGap})"

def errTooLow (nonce stateNonce : UInt64) : String :=
  s!"nonce {nonce} too low (state nonce {stateNonce})"

/-- The checks of `AddVerified` before the insertion. -/
def checkVerified (p : TxPool) : Option Transaction → Except String Transaction
  | none => .error "transaction is nil"
  | some tx =>
    if tx.type ≠ TxType.stake ∧ tx.type ≠ TxType.unstake then .error (errNotStaking tx.type)
    else
      match p.validator with
      | none => .error errNoValidatorVerified
      | some v =>
        match v.validateBasicFields tx, p.state with
        | some e, _ => .error (errBasicFields e)
        | none, none => .ok tx
        | none, some state =>
          let stateNonce := state.getNonce tx.fromAddr
          if stateNonce + maxNonceGap < tx.nonce then
            .error (errTooFarAhead tx.nonce stateNonce)
          else if tx.nonce < stateNonce then .error (errTooLow tx.nonce stateNonce)
          else .ok tx

/-- The end of `insertVerified`: a new nonce needs a slot. -/
def enterVerified (now : Int) (p : TxPool) (r : Ref) (tx : Transaction) :
    Option String × TxPool :=
  if p.maxAccountTxs ≤ (p.listAt r).len then
    match p.tryReplace sha3 r tx with
    | (false, p) => (some errPoolFull, p)
    | (true, p) => p.place sha3 now r tx
  else p.place sha3 now r tx

/-- The insertion of `AddVerified`. Unlike `addEntry` it creates the sender's
list before it knows whether there is room. -/
def insertVerified (now : Int) (p : TxPool) (tx : Transaction) : Option String × TxPool :=
  if p.all.contains (txHash sha3 tx) then (none, p)
  else
    let (r, p) := p.ensureList tx.fromAddr p.pending[tx.fromAddr]?
    let isReplacement := ((p.listAt r).get tx.nonce).isSome
    match if isReplacement then p.tryReplace sha3 r tx else (true, p) with
    | (false, p) => (some errUnderpriced, p)
    | (true, p) =>
      match p.makeRoom sha3 isReplacement tx with
      | (false, p) => (some errPoolFull, p)
      | (true, p) => p.enterVerified sha3 now r tx

def addVerified (now : Int) (p : TxPool) (tx : Option Transaction) : Option String × TxPool :=
  if p.stopped then (some errPoolStopped, p)
  else
    match p.checkVerified tx with
    | .error e => (some e, p)
    | .ok tx => p.insertVerified sha3 now tx

/-! ## Selection -/

/-- The nonce an account has in the state, 0 without a state. -/
def stateNonce (p : TxPool) (addr : Address) : UInt64 :=
  match p.state with
  | none => 0
  | some state => state.getNonce addr

/-- `getReadyTransactions`: the senders in the order of their addresses. -/
def getReadyTransactions (p : TxPool) : List Transaction :=
  p.pending.toList.flatMap fun e => (p.listAt e.2).ready (p.stateNonce e.1)

/-- The state of a selection. -/
structure Selection where
  heap : List TxSelection
  cursor : Fmap Address UInt64
  commitReveal : Option CommitRevealManager
  zombies : List Hash := []
  selected : List Transaction := []
  gasUsed : UInt64 := 0

/-- What a selection does with a candidate whose nonce is due. -/
inductive Verdict where
  | choose
  | defer
  | zombie
  deriving DecidableEq

/-- The commit-reveal gate of a due transaction. -/
def gate (now : Int) (p : TxPool) (m : Option CommitRevealManager) (tx : Transaction) :
    Verdict × Option CommitRevealManager :=
  match m with
  | none => (.choose, none)
  | some m =>
    let hash := txHash sha3 tx
    if ¬ (m.requiresCommitment tx.value ∧ tx.type = TxType.transfer) ∨ m.isTxRevealed hash then
      (.choose, some m)
    else
      match m.consumeReveal sha3 tx with
      | (true, m) => (.choose, some m)
      | (false, m) =>
        let expired := p.txTimestamps[hash]?.any fun ts => hour / 4 < now - ts
        (if !m.hasCommitmentFor sha3 tx && expired then .zombie else .defer, some m)

/-- The inner loop: candidates popped until one is chosen. -/
def pick (now : Int) (p : TxPool) : Nat → Selection → List TxSelection →
    Option TxSelection × Selection × List TxSelection
  | 0, s, deferred => (none, s, deferred)
  | fuel + 1, s, deferred =>
    match (selectionHeap sha3).heapPop s.heap with
    | (none, _) => (none, s, deferred)
    | (some sel, heap) =>
      let s := { s with heap := heap }
      if sel.tx.nonce ≠ s.cursor.getD sel.sender 0 then pick now p fuel s (deferred ++ [sel])
      else
        match p.gate sha3 now s.commitReveal sel.tx with
        | (.choose, m) => (some sel, { s with commitReveal := m }, deferred)
        | (.defer, m) => pick now p fuel { s with commitReveal := m } (deferred ++ [sel])
        | (.zombie, m) =>
          pick now p fuel
            { s with commitReveal := m, zombies := s.zombies ++ [txHash sha3 sel.tx] }
            deferred

/-- The outer loop. Every round but the last takes a new transaction. -/
def selectLoop (now : Int) (p : TxPool) (gasLimit : UInt64)
    (bySender : Fmap Address (List Transaction)) : Nat → Selection → Selection
  | 0, s => s
  | fuel + 1, s =>
    match pick sha3 now p s.heap.length s [] with
    | (none, s, _) => s
    | (some sel, s, deferred) =>
      let s := { s with heap := deferred.foldl (selectionHeap sha3).heapPush s.heap }
      if gasLimit < s.gasUsed + sel.tx.gasLimit then s
      else
        let s :=
          { s with
            selected := s.selected ++ [sel.tx]
            gasUsed := s.gasUsed + sel.tx.gasLimit
            cursor := s.cursor.insert sel.sender (s.cursor.getD sel.sender 0 + 1) }
        let next := sel.groupIndex + 1
        match (bySender.getD sel.sender [])[next]? with
        | none => selectLoop now p gasLimit bySender fuel s
        | some tx =>
          selectLoop now p gasLimit bySender fuel
            { s with heap := (selectionHeap sha3).heapPush s.heap ⟨sel.sender, tx, next⟩ }

/-- The ready transactions grouped by sender; a group comes in nonce order. -/
def groupBySender (txs : List Transaction) : Fmap Address (List Transaction) :=
  txs.foldl (fun m tx => m.insert tx.fromAddr (m.getD tx.fromAddr [] ++ [tx])) ∅

/-- `SelectTransactions`: the transactions for a block; the zombies found on
the way are removed at the end. -/
def selectTransactions (order : RangeOrder Address) (now : Int) (p : TxPool) (gasLimit : UInt64) :
    List Transaction × TxPool :=
  if p.stopped then ([], p)
  else
    let ready := p.getReadyTransactions
    let bySender := groupBySender ready
    let candidates := (bySender.range order).flatMap fun e =>
      e.2.zipIdx.map fun t => (⟨e.1, t.1, t.2⟩ : TxSelection)
    let cursor := bySender.toList.foldl (fun c e => c.insert e.1 (p.stateNonce e.1)) ∅
    let s := selectLoop sha3 now p gasLimit bySender (ready.length + 1)
      { heap := candidates.foldl (selectionHeap sha3).heapPush []
        cursor := cursor
        commitReveal := p.commitReveal }
    (s.selected, s.zombies.foldl (remove sha3) { p with commitReveal := s.commitReveal })

end TxPool

end Qau.Txpool
