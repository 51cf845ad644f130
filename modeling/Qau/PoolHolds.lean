import Qau.TxPool

/-!
# The structures of the pool hold one set of transactions

`Holds` says that the index by hash, the timestamps, the price queue, the
eviction heap and the lists of the senders have the same transactions, each
once. It is kept by the moves that the operations of the pool are made of:
a transaction taken out of all five (`removeListed`), an empty list dropped
or added, and a transaction entered into all five (`place`).
-/

namespace Qau.Txpool

open HeapInterface Fmap

variable {sha3 : Bytes → Hash}

/-! ## The heaps -/

/-- Every key is the hash of its transaction. -/
def Keyed (sha3 : Bytes → Hash) (all : Fmap Hash Transaction) : Prop :=
  ∀ h tx, all[h]? = some tx → txHash sha3 tx = h

/-- A list has the transactions of an index, each once. -/
structure SameTxs (sha3 : Bytes → Hash) (items : List Transaction) (all : Fmap Hash Transaction) :
    Prop where
  nodup : (items.map (txHash sha3)).Nodup
  mem : ∀ tx, tx ∈ items ↔ all[txHash sha3 tx]? = some tx

namespace SameTxs
variable {items items' : List Transaction} {all : Fmap Hash Transaction} {tx : Transaction}

theorem insert (h : SameTxs sha3 items all) (hnew : all[txHash sha3 tx]? = none)
    (hperm : items'.Perm (tx :: items)) : SameTxs sha3 items' (all.insert (txHash sha3 tx) tx) where
  nodup := by
    rw [(hperm.map _).nodup_iff, List.map_cons, List.nodup_cons]
    refine ⟨fun hmem => ?_, h.nodup⟩
    obtain ⟨tx', htx', heq⟩ := List.mem_map.mp hmem
    have hold := (h.mem tx').mp htx'
    rw [heq, hnew] at hold
    exact absurd hold nofun
  mem tx' := by
    rw [hperm.mem_iff, List.mem_cons, h.mem, getElem?_insert]
    by_cases heq : txHash sha3 tx = txHash sha3 tx'
    · rw [if_pos heq, ← heq, hnew, Option.some_inj]
      exact ⟨fun h => h.elim Eq.symm nofun, fun h => .inl h.symm⟩
    · rw [if_neg heq]
      exact ⟨fun h => h.elim (fun h => absurd (h ▸ rfl) heq) id, .inr⟩

theorem erase (h : SameTxs sha3 items all) (hperm : (tx :: items').Perm items) :
    SameTxs sha3 items' (all.erase (txHash sha3 tx)) := by
  have hnodup := h.nodup
  rw [← (hperm.map _).nodup_iff, List.map_cons, List.nodup_cons] at hnodup
  refine ⟨hnodup.2, fun tx' => ?_⟩
  have hmem := h.mem tx'
  rw [← hperm.mem_iff, List.mem_cons] at hmem
  rw [getElem?_erase]
  by_cases heq : txHash sha3 tx = txHash sha3 tx'
  · rw [if_pos heq]
    exact ⟨fun h => absurd (heq ▸ List.mem_map_of_mem h) hnodup.1, nofun⟩
  · rw [if_neg heq, ← hmem]
    exact ⟨.inr, fun h => h.resolve_left fun h => heq (h ▸ rfl)⟩

theorem erase_absent (h : SameTxs sha3 items all) (hk : Keyed sha3 all) {hash : Hash}
    (hne : ∀ tx ∈ items, txHash sha3 tx ≠ hash) : all.erase hash = all := by
  apply erase_of_getElem?_eq_none
  cases hget : all[hash]? with
  | none => rfl
  | some tx =>
    have hhash := hk _ _ hget
    exact absurd hhash (hne tx ((h.mem tx).mpr (hhash ▸ hget)))

end SameTxs

theorem ranksOn_priceLess (l : List Transaction) : RanksOn priceLess l where
  asymm a _ b _ := by simp only [priceLess, decide_eq_true_eq, decide_eq_false_iff_not]; omega
  trans a _ b _ c _ := by simp only [priceLess, decide_eq_false_iff_not]; omega

namespace TxPriceHeap
variable {h : TxPriceHeap} {all : Fmap Hash Transaction} {tx : Transaction}

theorem sameTxs_push (hs : SameTxs sha3 h all) (hnew : all[txHash sha3 tx]? = none) :
    SameTxs sha3 (h.push tx) (all.insert (txHash sha3 tx) tx) :=
  hs.insert hnew (heapPush_perm h tx)

theorem sameTxs_remove (hs : SameTxs sha3 h all) (hk : Keyed sha3 all) (hash : Hash) :
    SameTxs sha3 (h.remove sha3 hash) (all.erase hash) := by
  unfold remove
  split
  · next hfind =>
    rw [hs.erase_absent hk]
    · exact hs
    · intro tx htx
      simpa using List.findIdx?_eq_none_iff.mp hfind tx htx
  · next i hfind =>
    obtain ⟨hi, htx, -⟩ := List.findIdx?_eq_some_iff_getElem.mp hfind
    rw [← of_decide_eq_true htx]
    exact hs.erase (heapRemove_spec (List.getElem?_eq_getElem hi)).2

theorem sameTxs_pop (hs : SameTxs sha3 h all) (hpeek : h.peek = some tx) :
    SameTxs sha3 h.pop (all.erase (txHash sha3 tx)) := by
  rw [peek, List.head?_eq_getElem?] at hpeek
  exact hs.erase (heapPop_spec hpeek).2

theorem isHeap_push (ho : (sliceHeap priceLess).IsHeap h) :
    (sliceHeap priceLess).IsHeap (h.push tx) := by
  refine (sliceHeap_lawful priceLess).isHeap_heapPush ho ?_
  have hr := (ranksOn_priceLess (h ++ [tx])).ranked
  rwa [List.length_append, List.length_singleton] at hr

theorem isHeap_remove (ho : (sliceHeap priceLess).IsHeap h) (hash : Hash) :
    (sliceHeap priceLess).IsHeap (h.remove sha3 hash) := by
  unfold remove
  split
  · exact ho
  · next i hfind =>
    exact (sliceHeap_lawful priceLess).isHeap_heapRemove ho
      (List.findIdx?_eq_some_iff_getElem.mp hfind).1 (ranksOn_priceLess h).ranked

theorem isHeap_pop (ho : (sliceHeap priceLess).IsHeap h) (hpeek : h.peek = some tx) :
    (sliceHeap priceLess).IsHeap h.pop := by
  refine (sliceHeap_lawful priceLess).isHeap_heapPop ho ?_ (ranksOn_priceLess h).ranked
  exact List.length_pos_iff.mpr fun hnil => by rw [hnil] at hpeek; exact absurd hpeek nofun

end TxPriceHeap

namespace PriorityQueue
variable {q : PriorityQueue} {all : Fmap Hash Transaction} {tx : Transaction}

theorem items_push : (q.push sha3 tx).items =
    (sliceHeap (pricedLess sha3)).heapPush q.items tx :=
  (indexedHeap_hom (txHash sha3) (pricedLess sha3)).heapPush q tx

/-- The queue has the transactions of an index, each once and at the
position it records. -/
structure Holds (sha3 : Bytes → Hash) (q : PriorityQueue) (all : Fmap Hash Transaction) : Prop
    extends SameTxs sha3 q.items all where
  exact : Exact (txHash sha3) q

theorem Holds.push (h : Holds sha3 q all) (hnew : all[txHash sha3 tx]? = none) :
    Holds sha3 (q.push sha3 tx) (all.insert (txHash sha3 tx) tx) where
  toSameTxs := by
    rw [items_push]
    exact h.toSameTxs.insert hnew (heapPush_perm _ _)
  exact := by
    refine h.exact.heapPush ?_
    cases hidx : q.index[txHash sha3 tx]? with
    | none => rfl
    | some i =>
      obtain ⟨tx', htx', heq⟩ := (h.exact _ _).mp hidx
      have hold := (h.mem tx').mp (List.mem_of_getElem? htx')
      rw [heq, hnew] at hold
      exact absurd hold nofun

theorem Holds.remove (h : Holds sha3 q all) (hk : Keyed sha3 all) (hash : Hash) :
    Holds sha3 (q.remove sha3 hash) (all.erase hash) := by
  unfold PriorityQueue.remove
  split
  · next hidx =>
    rw [h.toSameTxs.erase_absent hk]
    · exact h
    · intro tx htx heq
      obtain ⟨i, hi, hget⟩ := List.getElem_of_mem htx
      have := (h.exact hash i).mpr ⟨tx, by rw [List.getElem?_eq_getElem hi, hget], heq⟩
      rw [hidx] at this
      exact absurd this nofun
  · next i hidx =>
    obtain ⟨tx, htx, rfl⟩ := (h.exact _ _).mp hidx
    refine ⟨?_, h.exact.heapRemove (List.getElem?_eq_some_iff.mp htx).1⟩
    rw [heap, (indexedHeap_hom (txHash sha3) (pricedLess sha3)).heapRemove]
    exact h.toSameTxs.erase (heapRemove_spec htx).2

/-- The queue is in the order of its comparison, and this is an order of its
items. -/
structure InOrder (sha3 : Bytes → Hash) (q : PriorityQueue) : Prop where
  ranks : RanksOn (pricedLess sha3) q.items
  isHeap : (heap sha3).IsHeap q

theorem InOrder.push (h : InOrder sha3 q) (hr : RanksOn (pricedLess sha3) (q.items ++ [tx])) :
    InOrder sha3 (q.push sha3 tx) := by
  have hom := indexedHeap_hom (txHash sha3) (pricedLess sha3)
  constructor
  · refine hr.subset fun a ha => ?_
    rw [items_push] at ha
    exact (List.perm_append_singleton tx q.items).mem_iff.mpr ((heapPush_perm _ _).mem_iff.mp ha)
  · rw [heap, hom.isHeap, items_push]
    refine (sliceHeap_lawful _).isHeap_heapPush (hom.isHeap.mp h.isHeap) ?_
    have hranked := hr.ranked
    rwa [List.length_append, List.length_singleton] at hranked

theorem InOrder.remove (h : InOrder sha3 q) (hex : Exact (txHash sha3) q) (hash : Hash) :
    InOrder sha3 (q.remove sha3 hash) := by
  unfold PriorityQueue.remove
  split
  · exact h
  · next i hidx =>
    have hom := indexedHeap_hom (txHash sha3) (pricedLess sha3)
    obtain ⟨tx, htx, -⟩ := (hex _ _).mp hidx
    constructor
    · rw [heap, hom.heapRemove]
      exact h.ranks.subset fun a ha =>
        (heapRemove_spec htx).2.mem_iff.mp (List.mem_cons_of_mem _ ha)
    · rw [heap, hom.isHeap, hom.heapRemove]
      exact (sliceHeap_lawful _).isHeap_heapRemove (hom.isHeap.mp h.isHeap)
        (List.getElem?_eq_some_iff.mp htx).1 h.ranks.ranked

end PriorityQueue

namespace TxPool
variable {p p' : TxPool} {r r' : Ref} {addr : Address} {tx : Transaction}
  {all : Fmap Hash Transaction}

/-! ## The lists -/

theorem listAt_setList_self (hr : r < p.lists.cells.length) (l : TxList) :
    (p.setList r l).listAt r = l := by
  rw [listAt, setList, Heap.read_write_self hr]; rfl

theorem listAt_setList_ne (hne : r ≠ r') (l : TxList) : (p.setList r l).listAt r' = p.listAt r' := by
  rw [listAt, setList, Heap.read_write_ne hne]; rfl

/-- The lists of the senders have the transactions of an index: each under
its sender and nonce, and no two senders share a list. -/
structure Listed (sha3 : Bytes → Hash) (all : Fmap Hash Transaction) (p : TxPool) : Prop where
  tidy : p.lists.Tidy fun (a : Address) r => p.pending[a]? = some r
  mem : ∀ tx, all[txHash sha3 tx]? = some tx ↔
    ∃ r, p.pending[tx.fromAddr]? = some r ∧ (p.listAt r).txs[tx.nonce]? = some tx
  placed : ∀ {a : Address} {r : Ref} {n : UInt64} {tx}, p.pending[a]? = some r → (p.listAt r).txs[n]? = some tx →
    tx.fromAddr = a ∧ tx.nonce = n

namespace Listed

section
variable (h : Listed sha3 all p)
include h

theorem congr (hp : p'.pending = p.pending) (hl : p'.lists = p.lists) : Listed sha3 all p' := by
  have hat : p'.listAt = p.listAt := by funext r; rw [listAt, listAt, hl]
  exact ⟨by rw [hp, hl]; exact h.tidy, by rw [hp, hat]; exact h.mem, by rw [hp, hat]; exact h.placed⟩

theorem get (hr : p.pending[tx.fromAddr]? = some r)
    (hall : all[txHash sha3 tx]? = some tx) : (p.listAt r).txs[tx.nonce]? = some tx := by
  obtain ⟨r', hr', hget⟩ := (h.mem tx).mp hall
  rw [hr, Option.some_inj] at hr'
  exact hr' ▸ hget

theorem remove (hr : p.pending[tx.fromAddr]? = some r) (hall : all[txHash sha3 tx]? = some tx) :
    Listed sha3 (all.erase (txHash sha3 tx)) (p.setList r ((p.listAt r).remove tx.nonce)) := by
  have hvalid := h.tidy.valid hr
  have hself := listAt_setList_self hvalid ((p.listAt r).remove tx.nonce)
  have hold := h.get hr hall
  refine ⟨h.tidy.write r _, fun tx' => ?_, fun {a r' n tx'} hr' hget => ?_⟩
  · rw [getElem?_erase]
    constructor
    · intro hin
      split_ifs at hin with hhash
      obtain ⟨r', hr', hget⟩ := (h.mem tx').mp hin
      refine ⟨r', hr', ?_⟩
      by_cases hrr : r = r'
      · subst hrr
        rw [hself, TxList.remove, getElem?_erase, if_neg]
        · exact hget
        · intro hn
          rw [← hn, hold, Option.some_inj] at hget
          exact hhash (hget ▸ rfl)
      · rw [listAt_setList_ne hrr]; exact hget
    · rintro ⟨r', hr', hget⟩
      have hne : tx' ≠ tx ∧ (p.listAt r').txs[tx'.nonce]? = some tx' := by
        by_cases hrr : r = r'
        · subst hrr
          rw [hself, TxList.remove, getElem?_erase] at hget
          split_ifs at hget with hn
          exact ⟨fun heq => hn (heq ▸ rfl), hget⟩
        · rw [listAt_setList_ne hrr] at hget
          refine ⟨fun heq => hrr ?_, hget⟩
          rw [heq] at hr'
          exact Option.some.inj (hr.symm.trans hr')
      have hin := (h.mem tx').mpr ⟨r', hr', hne.2⟩
      rw [if_neg]
      · exact hin
      · intro hhash
        rw [← hhash, hall, Option.some_inj] at hin
        exact hne.1 hin.symm
  · by_cases hrr : r = r'
    · subst hrr
      rw [hself, TxList.remove, getElem?_erase] at hget
      split_ifs at hget
      exact h.placed hr' hget
    · rw [listAt_setList_ne hrr] at hget
      exact h.placed hr' hget

theorem insert (hr : p.pending[tx.fromAddr]? = some r) (hnew : all[txHash sha3 tx]? = none)
    (hfree : (p.listAt r).txs[tx.nonce]? = none) : Listed sha3 (all.insert (txHash sha3 tx) tx)
      (p.setList r ⟨(p.listAt r).txs.insert tx.nonce tx⟩) := by
  have hvalid := h.tidy.valid hr
  have hself := listAt_setList_self hvalid ⟨(p.listAt r).txs.insert tx.nonce tx⟩
  refine ⟨h.tidy.write r _, fun tx' => ?_, fun {a r' n tx'} hr' hget => ?_⟩
  · rw [getElem?_insert]
    constructor
    · intro hin
      split_ifs at hin with hhash
      · rw [Option.some_inj] at hin
        subst hin
        exact ⟨r, hr, by rw [hself, getElem?_insert_self]⟩
      · obtain ⟨r', hr', hget⟩ := (h.mem tx').mp hin
        refine ⟨r', hr', ?_⟩
        by_cases hrr : r = r'
        · subst hrr
          rw [hself, getElem?_insert_ne _ _ fun hn => ?_]
          · exact hget
          · rw [← hn, hfree] at hget
            exact absurd hget nofun
        · rw [listAt_setList_ne hrr]; exact hget
    · rintro ⟨r', hr', hget⟩
      have hcases : tx' = tx ∨ (p.listAt r').txs[tx'.nonce]? = some tx' := by
        by_cases hrr : r = r'
        · subst hrr
          rw [hself, getElem?_insert] at hget
          split_ifs at hget
          · exact .inl (Option.some.inj hget).symm
          · exact .inr hget
        · rw [listAt_setList_ne hrr] at hget
          exact .inr hget
      rcases hcases with rfl | hget
      · rw [if_pos rfl]
      · have hin := (h.mem tx').mpr ⟨r', hr', hget⟩
        rw [if_neg]
        · exact hin
        · intro hhash
          rw [← hhash, hnew] at hin
          exact absurd hin nofun
  · by_cases hrr : r = r'
    · subst hrr
      rw [hself, getElem?_insert] at hget
      split_ifs at hget with hn
      · rw [Option.some_inj] at hget
        subst hget
        exact ⟨h.tidy.apart hr hr', hn⟩
      · exact h.placed hr' hget
    · rw [listAt_setList_ne hrr] at hget
      exact h.placed hr' hget

theorem erase (hr : p.pending[addr]? = some r) (hempty : (p.listAt r).len = 0) :
    Listed sha3 all { p with pending := p.pending.erase addr } := by
  have hnone : ∀ n : UInt64, (p.listAt r).txs[n]? = none := by
    intro n
    rw [TxList.len, ← Std.ExtTreeMap.eq_empty_iff_size_eq_zero] at hempty
    rw [hempty, Std.ExtTreeMap.getElem?_empty]
  refine ⟨h.tidy.mono fun a r' hr' => ?_, fun tx => ?_, fun {a r' n tx} hr' hget => ?_⟩
  · dsimp only at hr'
    rw [getElem?_erase] at hr'
    split_ifs at hr'
    exact hr'
  · rw [h.mem]
    refine exists_congr fun r' => and_congr_left fun hget => ?_
    dsimp only
    rw [getElem?_erase]
    split_ifs with ha
    · constructor
      · intro hr'
        rw [← ha, hr, Option.some_inj] at hr'
        subst hr'
        exact absurd ((hnone _).symm.trans hget) nofun
      · nofun
    · rfl
  · dsimp only at hr'
    rw [getElem?_erase] at hr'
    split_ifs at hr'
    exact h.placed hr' hget

theorem dropEmpty (hr : p.pending[addr]? = some r) : Listed sha3 all (p.dropEmpty addr r) := by
  unfold TxPool.dropEmpty
  split_ifs with hempty
  · exact h.erase hr hempty
  · exact h

theorem newList (hnone : p.pending[addr]? = none) : Listed sha3 all (p.newList addr).2 := by
  have hfresh : (p.newList addr).2.listAt (p.newList addr).1 = {} := by
    simp only [TxPool.newList, listAt, Heap.read_alloc_self, Option.getD_some]
  have hkeep : ∀ {a : Address} {r}, p.pending[a]? = some r → (p.newList addr).2.listAt r = p.listAt r := by
    intro a r hr
    simp only [TxPool.newList, listAt]
    rw [Heap.read_alloc (h.tidy.valid hr)]
  have hpending : ∀ (a : Address) r, (p.newList addr).2.pending[a]? = some r ↔
      p.pending[a]? = some r ∨ (a = addr ∧ r = (p.newList addr).1) := by
    intro a r
    simp only [TxPool.newList]
    rw [getElem?_insert]
    split_ifs with ha
    · subst ha
      rw [hnone, Option.some_inj]
      exact ⟨fun h => .inr ⟨rfl, h.symm⟩, fun h => (h.resolve_left nofun).2.symm⟩
    · exact ⟨.inl, fun h => h.resolve_right fun h => ha h.1.symm⟩
  refine ⟨(h.tidy.alloc addr {}).mono fun a r hr => (hpending a r).mp hr, fun tx => ?_,
    fun {a r n tx} hr hget => ?_⟩
  · rw [h.mem]
    constructor
    · rintro ⟨r, hr, hget⟩
      exact ⟨r, (hpending _ _).mpr (.inl hr), by rw [hkeep hr]; exact hget⟩
    · rintro ⟨r, hr, hget⟩
      rcases (hpending _ _).mp hr with hold | ⟨-, rfl⟩
      · exact ⟨r, hold, by rw [← hkeep hold]; exact hget⟩
      · rw [hfresh] at hget
        exact absurd hget (by simp)
  · rcases (hpending _ _).mp hr with hold | ⟨-, rfl⟩
    · rw [hkeep hold] at hget
      exact h.placed hold hget
    · rw [hfresh] at hget
      exact absurd hget (by simp)

end

end Listed

/-! ## The pool -/

/-- The structures keyed by hash agree with the index. The order of the price
queue is part of it if `ordered` holds. -/
structure Indexed (sha3 : Bytes → Hash) (ordered : Prop) (p : TxPool) : Prop where
  keyed : Keyed sha3 p.all
  stamped : ∀ h : Hash, p.txTimestamps[h]?.isSome = p.all[h]?.isSome
  priced : p.priced.Holds sha3 p.all
  pricedOrder : ordered → p.priced.InOrder sha3
  evict : SameTxs sha3 p.evictionHeap p.all
  evictOrder : (sliceHeap priceLess).IsHeap p.evictionHeap

theorem Keyed.erase (hk : Keyed sha3 all) (hash : Hash) : Keyed sha3 (all.erase hash) := by
  intro h tx hget
  rw [getElem?_erase] at hget
  split_ifs at hget
  exact hk h tx hget

theorem Keyed.insert (hk : Keyed sha3 all) (tx : Transaction) :
    Keyed sha3 (all.insert (txHash sha3 tx) tx) := by
  intro h tx' hget
  rw [getElem?_insert] at hget
  split_ifs at hget with hh
  · rw [Option.some_inj] at hget
    exact hget ▸ hh
  · exact hk h tx' hget

namespace Indexed
variable {ordered : Prop}

section
variable (h : Indexed sha3 ordered p)
include h

theorem congr (ha : p'.all = p.all)
    (ht : p'.txTimestamps = p.txTimestamps) (hp : p'.priced = p.priced)
    (he : p'.evictionHeap = p.evictionHeap) : Indexed sha3 ordered p' := by
  refine ⟨?_, ?_, ?_, ?_, ?_, ?_⟩
  · rw [ha]; exact h.keyed
  · rw [ha, ht]; exact h.stamped
  · rw [ha, hp]; exact h.priced
  · rw [hp]; exact h.pricedOrder
  · rw [ha, he]; exact h.evict
  · rw [he]; exact h.evictOrder

theorem stamped_erase (hash k : Hash) :
    (p.txTimestamps.erase hash)[k]?.isSome = (p.all.erase hash)[k]?.isSome := by
  rw [getElem?_erase, getElem?_erase]
  split_ifs
  · rfl
  · exact h.stamped k

theorem forget (hash : Hash) : Indexed sha3 ordered (p.forget sha3 hash) where
  keyed := Keyed.erase h.keyed hash
  stamped := h.stamped_erase hash
  priced := h.priced.remove h.keyed hash
  pricedOrder ho := (h.pricedOrder ho).remove h.priced.exact hash
  evict := TxPriceHeap.sameTxs_remove h.evict h.keyed hash
  evictOrder := TxPriceHeap.isHeap_remove h.evictOrder hash

theorem evictPeek (hpeek : p.evictionHeap.peek = some tx) :
    Indexed sha3 ordered (p.popLowest sha3 (txHash sha3 tx)) where
  keyed := Keyed.erase h.keyed _
  stamped := h.stamped_erase _
  priced := h.priced.remove h.keyed _
  pricedOrder ho := (h.pricedOrder ho).remove h.priced.exact _
  evict := TxPriceHeap.sameTxs_pop h.evict hpeek
  evictOrder := TxPriceHeap.isHeap_pop h.evictOrder hpeek

theorem insert (hnew : p.all[txHash sha3 tx]? = none) (now : Int)
    (hr : ordered → RanksOn (pricedLess sha3) (p.priced.items ++ [tx])) :
    Indexed sha3 ordered { p with
        all := p.all.insert (txHash sha3 tx) tx
        txTimestamps := p.txTimestamps.insert (txHash sha3 tx) now
        priced := p.priced.push sha3 tx
        evictionHeap := p.evictionHeap.push tx } where
  keyed := Keyed.insert h.keyed tx
  stamped k := by
    dsimp only
    rw [getElem?_insert, getElem?_insert]
    split_ifs
    · rfl
    · exact h.stamped k
  priced := h.priced.push hnew
  pricedOrder ho := (h.pricedOrder ho).push (hr ho)
  evict := TxPriceHeap.sameTxs_push h.evict hnew
  evictOrder := TxPriceHeap.isHeap_push h.evictOrder

end

end Indexed

end TxPool

end Qau.Txpool
