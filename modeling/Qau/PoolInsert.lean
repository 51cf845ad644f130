import Qau.PoolSound

/-!
# What insertions do to a sound pool

The moves that an insertion consists of: the eviction of the lowest
transaction, the entry of the newcomer into its sender's list and all other
structures, a new list, and the replacement of a transaction.
-/

namespace Qau.Txpool.TxPool

open Std.ExtTreeMap

open HeapInterface

variable {sha3 : Bytes → Hash} {ordered : Prop} {spare : Set Ref} {p q : TxPool} {r : Ref}
  {addr : Address} {tx low old : Transaction} {now : Int}

/-! ## Eviction -/

/-- The fields that only the outside world changes. -/
structure SameWorld (p q : TxPool) : Prop where
  validator : q.validator = p.validator
  state : q.state = p.state
  maxSize : q.maxSize = p.maxSize
  maxAccountTxs : q.maxAccountTxs = p.maxAccountTxs
  priceBumpPercent : q.priceBumpPercent = p.priceBumpPercent
  commitReveal : q.commitReveal = p.commitReveal
  stopped : q.stopped = p.stopped

theorem SameWorld.refl (p : TxPool) : SameWorld p p := ⟨rfl, rfl, rfl, rfl, rfl, rfl, rfl⟩

theorem SameWorld.trans {p' : TxPool} (h : SameWorld p q) (h' : SameWorld q p') : SameWorld p p' :=
  ⟨h'.1.trans h.1, h'.2.trans h.2, h'.3.trans h.3, h'.4.trans h.4, h'.5.trans h.5, h'.6.trans h.6,
    h'.7.trans h.7⟩

@[simp] theorem all_dropEmpty (p : TxPool) (a : Address) (r : Ref) :
    (p.dropEmpty a r).all = p.all := by unfold TxPool.dropEmpty; split_ifs <;> rfl

@[simp] theorem listAt_dropEmpty (p : TxPool) (a : Address) (r r' : Ref) :
    (p.dropEmpty a r).listAt r' = p.listAt r' := by unfold TxPool.dropEmpty; split_ifs <;> rfl

theorem Sound.gone_evict (h : Sound sha3 ordered spare p) (hpeek : p.evictionHeap.peek = some low) :
    Sound.Gone sha3 ordered p low (p.popLowest sha3 (txHash sha3 low)) :=
  ⟨h.toIndexed.evictPeek hpeek, rfl, rfl, rfl, rfl, rfl⟩

theorem Sound.all_peek (h : Sound sha3 ordered spare p) (hpeek : p.evictionHeap.peek = some low) :
    p.all[txHash sha3 low]? = some low := by
  rw [TxPriceHeap.peek, List.head?_eq_getElem?] at hpeek
  exact (h.evict.mem low).mp (List.mem_of_getElem? hpeek)

/-- What an eviction does: the lowest transaction leaves the index and its
list, and an emptied list is dropped. -/
structure Evicted (sha3 : Bytes → Hash) (p : TxPool) (low : Transaction) (rl : Ref) (q : TxPool) :
    Prop where
  world : SameWorld p q
  all : q.all = p.all.erase (txHash sha3 low)
  listAt_self : q.listAt rl = (p.listAt rl).remove low.nonce
  listAt_ne : ∀ {r}, r ≠ rl → q.listAt r = p.listAt r
  pending_ne : ∀ {a : Address}, a ≠ low.fromAddr → q.pending[a]? = p.pending[a]?
  pending_self : q.pending[low.fromAddr]? =
    if ((p.listAt rl).remove low.nonce).len = 0 then none else some rl

theorem Sound.evicted (h : Sound sha3 ordered spare p) {rl : Ref}
    (hr : p.pending[low.fromAddr]? = some rl) : Evicted sha3 p low rl (p.evict sha3 low) := by
  have hvalid := h.tidy.valid hr
  rw [TxPool.evict, Sound.unlist_eq (q := p.popLowest sha3 (txHash sha3 low)) hr]
  have hself := listAt_setList_self (p := p.popLowest sha3 (txHash sha3 low)) hvalid
    ((p.listAt rl).remove low.nonce)
  refine
    { world := ?_, all := ?_, listAt_self := ?_, listAt_ne := ?_, pending_ne := ?_,
      pending_self := ?_ }
  · unfold TxPool.dropEmpty; split_ifs <;> exact ⟨rfl, rfl, rfl, rfl, rfl, rfl, rfl⟩
  · rw [all_dropEmpty]; rfl
  · rw [listAt_dropEmpty]; exact hself
  · intro r hne
    rw [listAt_dropEmpty]
    exact listAt_setList_ne (Ne.symm hne) _
  · intro a hne
    rw [Sound.pending_dropEmpty_ne hne]; rfl
  · unfold TxPool.dropEmpty
    have hat : (p.popLowest sha3 (txHash sha3 low)).listAt rl = p.listAt rl := rfl
    rw [hat, hself]
    split_ifs
    · exact Fmap.getElem?_erase_self _ _
    · exact hr

theorem Sound.evict_sound (h : Sound sha3 ordered spare p)
    (hpeek : p.evictionHeap.peek = some low) : Sound sha3 ordered spare (p.evict sha3 low) :=
  h.unlist (h.gone_evict hpeek) (h.all_peek hpeek)

/-! ## Entry into a list -/

/-- The nonce is not too far ahead of the state. -/
def Admissible (p : TxPool) (tx : Transaction) : Prop :=
  ∀ state ∈ p.state, ¬ state.getNonce tx.fromAddr + maxNonceGap < tx.nonce

theorem addToList_ok {l l' : TxList} (h : p.addToList l tx = .ok l') :
    l' = ⟨l.txs.insert tx.nonce tx⟩ := by
  have hadd : l.add tx = .ok l' → l' = ⟨l.txs.insert tx.nonce tx⟩ := by
    intro h
    unfold TxList.add at h
    split_ifs at h
    exact (Except.ok.inj h).symm
  unfold addToList at h
  split at h
  · unfold TxList.addWithStateNonce at h
    dsimp only at h
    split_ifs at h <;> exact hadd h
  · exact hadd h

/-- An empty list takes any nonce that is not too far ahead. -/
theorem addToList_empty {l : TxList} (hl : l.len = 0) (hadm : Admissible p tx) :
    p.addToList l tx = .ok ⟨l.txs.insert tx.nonce tx⟩ := by
  have hadd : l.add tx = .ok ⟨l.txs.insert tx.nonce tx⟩ := by
    rw [TxList.add, if_neg]; rintro ⟨hpos, -⟩; omega
  unfold addToList
  cases hs : p.state with
  | none => exact hadd
  | some state =>
    dsimp only [TxList.addWithStateNonce]
    rw [if_neg (c := state.getNonce tx.fromAddr = 0 ∧ 0 < l.len) (by rintro ⟨-, hpos⟩; omega),
      if_neg (hadm state hs)]
    exact hadd

/-- The transaction in all structures. -/
def enter (sha3 : Bytes → Hash) (now : Int) (p : TxPool) (r : Ref) (tx : Transaction) : TxPool :=
  { p.setList r ⟨(p.listAt r).txs.insert tx.nonce tx⟩ with
    all := p.all.insert (txHash sha3 tx) tx
    txTimestamps := p.txTimestamps.insert (txHash sha3 tx) now
    priced := p.priced.push sha3 tx
    evictionHeap := p.evictionHeap.push tx }

theorem place_ok {l : TxList} (h : p.addToList (p.listAt r) tx = .ok l) :
    p.place sha3 now r tx = (none, p.enter sha3 now r tx) := by
  have hl := addToList_ok h
  subst hl
  simp only [place]
  split
  · next e he => cases he.symm.trans h
  · next l hl =>
    cases hl.symm.trans h
    rfl

theorem place_error {e : String} (h : p.addToList (p.listAt r) tx = .error e)
    (hidx : Indexed sha3 ordered p) (hnew : p.all[txHash sha3 tx]? = none) :
    p.place sha3 now r tx = (some e, p) := by
  have hstamp : p.txTimestamps[txHash sha3 tx]? = none := by
    have := hidx.stamped (txHash sha3 tx)
    rw [hnew] at this
    exact Option.isNone_iff_eq_none.mp (by rw [← Option.not_isSome, this]; rfl)
  simp only [place]
  split
  · next e' he =>
    cases he.symm.trans h
    rw [Fmap.erase_insert_of_getElem?_eq_none _ hnew, Fmap.erase_insert_of_getElem?_eq_none _ hstamp]
  · next l hl => cases hl.symm.trans h

theorem size_insert_of_none {κ ν : Type} [Ord κ] [Std.TransOrd κ] {m : Fmap κ ν} {k : κ} {v : ν}
    (h : m[k]? = none) : (m.insert k v).size = m.size + 1 := by
  rw [size_insert, if_neg]
  rw [← isSome_getElem?_eq_contains, h]
  exact nofun

/-- The transaction entered into all structures of a pool with room for it. -/
theorem Sound.enter (h : Sound sha3 ordered (insert r spare) p)
    (hr : p.pending[tx.fromAddr]? = some r) (hnew : p.all[txHash sha3 tx]? = none)
    (hfree : (p.listAt r).txs[tx.nonce]? = none) (hsize : (p.all.size : Int) < p.maxSize)
    (hlen : ((p.listAt r).len : Int) < p.maxAccountTxs)
    (hord : ordered → RanksOn (pricedLess sha3) (p.priced.items ++ [tx])) :
    Sound sha3 ordered spare (p.enter sha3 now r tx) := by
  have hself : (p.enter sha3 now r tx).listAt r = ⟨(p.listAt r).txs.insert tx.nonce tx⟩ :=
    listAt_setList_self (p := p) (h.tidy.valid hr) _
  have hlen' : ((p.enter sha3 now r tx).listAt r).len = (p.listAt r).len + 1 := by
    rw [hself]; exact size_insert_of_none hfree
  have hne : ∀ {r'}, r ≠ r' → (p.enter sha3 now r tx).listAt r' = p.listAt r' := fun hrr =>
    listAt_setList_ne (p := p) hrr _
  refine
    { toIndexed := (h.toIndexed.insert hnew now hord).congr rfl rfl rfl rfl
      toListed := (h.toListed.insert hr hnew hfree).congr rfl rfl
      nonempty := fun {a r'} hr' hns => ?_
      size_le := ?_
      account_le := fun {a r'} hr' => ?_
      account_pos := h.account_pos }
  · by_cases hrr : r = r'
    · subst hrr; rw [hlen']; exact Nat.succ_ne_zero _
    · rw [hne hrr]
      exact h.nonempty hr' fun hs => hs.elim (fun he => hrr he.symm) hns
  · change (((p.all.insert (txHash sha3 tx) tx).size : Nat) : Int) ≤ p.maxSize
    rw [size_insert_of_none hnew]
    omega
  · change _ ≤ p.maxAccountTxs
    by_cases hrr : r = r'
    · subst hrr; rw [hlen']; omega
    · rw [hne hrr]; exact h.account_le hr'

theorem Sound.pending_evict (h : Sound sha3 ordered spare p)
    (hpeek : p.evictionHeap.peek = some low) (hr : p.pending[addr]? = some r)
    (hkeep : low.fromAddr = addr → 2 ≤ (p.listAt r).len) :
    (p.evict sha3 low).pending[addr]? = some r := by
  obtain ⟨rl, hrl⟩ := h.pending_of_all (h.all_peek hpeek)
  have hev := h.evicted hrl
  by_cases hfrom : low.fromAddr = addr
  · subst hfrom
    obtain rfl : r = rl := Option.some.inj (hr.symm.trans hrl)
    rw [hev.pending_self, if_neg]
    have htwo : 2 ≤ (p.listAt r).txs.size := hkeep rfl
    have hone := size_le_size_erase (t := (p.listAt r).txs) (k := low.nonce)
    change ¬ ((p.listAt r).txs.erase low.nonce).size = 0
    omega
  · rw [hev.pending_ne (Ne.symm hfrom)]
    exact hr

theorem Sound.pending_evict_none (h : Sound sha3 ordered spare p)
    (hpeek : p.evictionHeap.peek = some low) (hr : p.pending[addr]? = none) :
    (p.evict sha3 low).pending[addr]? = none := by
  obtain ⟨rl, hrl⟩ := h.pending_of_all (h.all_peek hpeek)
  have hne : addr ≠ low.fromAddr := by
    rintro rfl
    exact absurd (hr.symm.trans hrl) nofun
  rw [(h.evicted hrl).pending_ne hne]
  exact hr

theorem Sound.newList (h : Sound sha3 ordered spare p) (hnone : p.pending[addr]? = none) :
    Sound sha3 ordered (insert (p.newList addr).1 spare) (p.newList addr).2 := by
  have hpending : ∀ {a : Address} {r}, (p.newList addr).2.pending[a]? = some r →
      r = (p.newList addr).1 ∨ p.pending[a]? = some r := by
    intro a r hr
    change (p.pending.insert addr (p.newList addr).1)[a]? = some r at hr
    rw [Fmap.getElem?_insert] at hr
    split_ifs at hr
    · exact .inl (Option.some.inj hr).symm
    · exact .inr hr
  have hkeep : ∀ {a : Address} {r}, p.pending[a]? = some r →
      (p.newList addr).2.listAt r = p.listAt r := fun {a r} hr => by
    simp only [TxPool.newList, listAt]
    rw [Heap.read_alloc (h.tidy.valid hr)]
  have hfresh : ((p.newList addr).2.listAt (p.newList addr).1).len = 0 := by
    simp only [TxPool.newList, listAt, Heap.read_alloc_self, Option.getD_some]
    rfl
  exact
    { toIndexed := h.toIndexed.congr rfl rfl rfl rfl
      toListed := h.toListed.newList hnone
      nonempty := fun hr hns => by
        rcases hpending hr with rfl | hold
        · exact absurd (Set.mem_insert _ _) hns
        · rw [hkeep hold]; exact h.nonempty hold fun hs => hns (.inr hs)
      size_le := h.size_le
      account_le := fun hr => by
        rcases hpending hr with rfl | hold
        · rw [hfresh]; exact h.account_pos.le
        · rw [hkeep hold]; exact h.account_le hold
      account_pos := h.account_pos }

theorem sameWorld_newList (p : TxPool) (a : Address) : SameWorld p (p.newList a).2 :=
  ⟨rfl, rfl, rfl, rfl, rfl, rfl, rfl⟩

theorem pending_newList (p : TxPool) (a : Address) :
    (p.newList a).2.pending[a]? = some (p.newList a).1 :=
  Fmap.getElem?_insert_self _ _ _

theorem listAt_newList (p : TxPool) (a : Address) : (p.newList a).2.listAt (p.newList a).1 = {} := by
  simp only [TxPool.newList, listAt, Heap.read_alloc_self, Option.getD_some]

theorem Sound.register (h : Sound sha3 ordered spare p) (tx : Transaction) :
    Sound sha3 ordered spare (p.register tx).2 := by
  unfold TxPool.register
  split
  · exact h
  · split_ifs
    · exact h.congr (h.toIndexed.congr rfl rfl rfl rfl) rfl rfl rfl rfl rfl
    · exact h

theorem size_pos_of_contains {κ ν : Type} [Ord κ] [Std.TransOrd κ] {m : Fmap κ ν} {k : κ}
    (h : m.contains k = true) : 0 < m.size :=
  Nat.pos_of_ne_zero fun h0 => by
    rw [← eq_empty_iff_size_eq_zero] at h0
    rw [h0, contains_empty] at h
    exact absurd h nofun

theorem Sound.len_removeListed (h : Sound sha3 ordered spare p)
    (hr : p.pending[tx.fromAddr]? = some r) (hold : (p.listAt r).txs[tx.nonce]? = some old) :
    (((p.removeListed sha3 r old).listAt r).len : Int) < p.maxAccountTxs := by
  obtain ⟨-, hnonce⟩ := h.placed hr hold
  have hlist : ((p.listAt r).txs).contains old.nonce = true := by
    rw [← isSome_getElem?_eq_contains, hnonce, hold]; rfl
  rw [Sound.listAt_removeListed (h.tidy.valid hr), TxList.len, TxList.remove,
    size_erase, if_pos hlist]
  have hle : (((p.listAt r).txs.size : Nat) : Int) ≤ p.maxAccountTxs := h.account_le hr
  have := size_pos_of_contains hlist
  omega

end Qau.Txpool.TxPool
