import Qau.CommitReveal
import Qau.SliceHeap
import Qau.Heap

/-!
# The containers of the transaction pool

Models of `txList` and `txPriceHeap` of `txpool/list.go`, of `PriorityQueue`
of `txpool/priority_queue.go` and of `txSelectionMaxHeap` of
`txpool/pool.go`. The heaps are those of `container/heap` under the
comparisons of the source.
-/

namespace Qau.Txpool

def effectiveGasPriceForSorting (tx : Transaction) : Int :=
  if tx.type = TxType.dynamicFee then tx.maxPriorityFeePerGas.getD (tx.gasPrice.getD 0)
  else tx.gasPrice.getD 0

/-! ## The transactions of one sender -/

/-- `txList`, keyed by nonce. -/
structure TxList where
  txs : Fmap UInt64 Transaction := ∅

namespace TxList

def minNonce (l : TxList) : UInt64 := l.txs.keys.min?.getD 0

def len (l : TxList) : Nat := l.txs.size

def get (l : TxList) (nonce : UInt64) : Option Transaction := l.txs[nonce]?

def remove (l : TxList) (nonce : UInt64) : TxList := ⟨l.txs.erase nonce⟩

def errGapMin (nonce min : UInt64) : String :=
  s!"nonce {nonce} exceeds gap limit: min pending {min} + max gap {maxNonceGap}"

def errGapState (nonce baseline : UInt64) : String :=
  s!"nonce {nonce} exceeds gap limit: state nonce {baseline} + max gap {maxNonceGap}"

def add (l : TxList) (tx : Transaction) : Except String TxList :=
  if 0 < l.len ∧ l.minNonce + maxNonceGap < tx.nonce then
    .error (errGapMin tx.nonce l.minNonce)
  else .ok ⟨l.txs.insert tx.nonce tx⟩

def addWithStateNonce (l : TxList) (tx : Transaction) (stateNonce : UInt64) :
    Except String TxList :=
  let baseline := if stateNonce = 0 ∧ 0 < l.len then l.minNonce else stateNonce
  if baseline + maxNonceGap < tx.nonce then .error (errGapState tx.nonce baseline)
  else l.add tx

/-- The loop of `Ready`: consecutive nonces, stopping short of the greatest
one. -/
def readyFrom (l : TxList) : Nat → UInt64 → List Transaction
  | 0, _ => []
  | fuel + 1, nonce =>
    if nonce = UInt64.ofNat (2 ^ 64 - 1) then []
    else
      match l.txs[nonce]? with
      | none => []
      | some tx => tx :: readyFrom l fuel (nonce + 1)

/-- `Ready`; no nonce comes twice, so the length bounds the rounds. -/
def ready (l : TxList) (startNonce : UInt64) : List Transaction :=
  l.readyFrom (l.len + 1) startNonce

/-- `All`: the map is ordered by nonce. -/
def all (l : TxList) : List Transaction := l.txs.toList.map Prod.snd

end TxList

/-! ## The eviction heap -/

/-- `txPriceHeap.Less`. -/
def priceLess (a b : Transaction) : Bool :=
  effectiveGasPriceForSorting a < effectiveGasPriceForSorting b

abbrev TxPriceHeap := List Transaction

namespace TxPriceHeap

def push (h : TxPriceHeap) (tx : Transaction) : TxPriceHeap := (sliceHeap priceLess).heapPush h tx

def peek (h : TxPriceHeap) : Option Transaction := h.head?

def pop (h : TxPriceHeap) : TxPriceHeap := ((sliceHeap priceLess).heapPop h).2

/-- `Remove`: the first transaction with the hash. -/
def remove (sha3 : Bytes → Hash) (h : TxPriceHeap) (hash : Hash) : TxPriceHeap :=
  match h.findIdx? fun tx => txHash sha3 tx = hash with
  | none => h
  | some i => ((sliceHeap priceLess).heapRemove h i).2

end TxPriceHeap

/-! ## The price queue -/

/-- The order of hashes; their hexadecimal texts have the same. -/
def hashLess (a b : Hash) : Bool := compare a b = .lt

/-- `PriorityQueue.Less`: the higher price, for one sender the lower nonce,
between senders the lower hash. -/
def pricedLess (sha3 : Bytes → Hash) (a b : Transaction) : Bool :=
  if effectiveGasPriceForSorting a ≠ effectiveGasPriceForSorting b then
    effectiveGasPriceForSorting b < effectiveGasPriceForSorting a
  else if a.fromAddr = b.fromAddr then a.nonce < b.nonce
  else hashLess (txHash sha3 a) (txHash sha3 b)

abbrev PriorityQueue := IndexedItems Transaction Hash

namespace PriorityQueue

/-- `PriorityQueue` as a `heap.Interface`. -/
def heap (sha3 : Bytes → Hash) : HeapInterface PriorityQueue Transaction :=
  indexedHeap (txHash sha3) (pricedLess sha3)

def push (sha3 : Bytes → Hash) (q : PriorityQueue) (tx : Transaction) : PriorityQueue :=
  (heap sha3).heapPush q tx

def remove (sha3 : Bytes → Hash) (q : PriorityQueue) (hash : Hash) : PriorityQueue :=
  match q.index[hash]? with
  | none => q
  | some i => ((heap sha3).heapRemove q i).2

end PriorityQueue

/-! ## The heap of a selection -/

structure TxSelection where
  sender : Address
  tx : Transaction
  groupIndex : Nat

/-- `txSelectionMaxHeap`. -/
def selectionHeap (sha3 : Bytes → Hash) : HeapInterface (List TxSelection) TxSelection :=
  sliceHeap fun a b =>
    if effectiveGasPriceForSorting a.tx ≠ effectiveGasPriceForSorting b.tx then
      effectiveGasPriceForSorting b.tx < effectiveGasPriceForSorting a.tx
    else hashLess (txHash sha3 a.tx) (txHash sha3 b.tx)

end Qau.Txpool
