import Qau.PoolHolds
import Mathlib.Data.Set.Insert

/-!
# The invariant of the transaction pool

`Sound` is the invariant of the pool: the structures agree, no list is
empty, and the pool and every sender are within their limits. Inside an
insertion the list of the sender may be empty for a moment; `spare` has
it. Each move of the pool is shown to keep the invariant, and with it every
removal: `remove`, `RemoveConfirmed`, `SetState` and the zombie cleanup.
-/

namespace Qau.Txpool.TxPool

open Std.ExtTreeMap

open HeapInterface

variable {sha3 : Bytes → Hash} {ordered : Prop} {spare : Set Ref} {p p' : TxPool} {r r' : Ref}
  {addr : Address} {tx : Transaction} {q : TxPool} {now limit : Int} {c : Int × TxPool}

/-- The invariant of the pool, but for the lists `spare`, which may be empty. -/
structure Sound (sha3 : Bytes → Hash) (ordered : Prop) (spare : Set Ref) (p : TxPool) : Prop
    extends Indexed sha3 ordered p, Listed sha3 p.all p where
  nonempty : ∀ {a : Address} {r}, p.pending[a]? = some r → r ∉ spare → (p.listAt r).len ≠ 0
  size_le : (p.all.size : Int) ≤ p.maxSize
  account_le : ∀ {a : Address} {r}, p.pending[a]? = some r →
    ((p.listAt r).len : Int) ≤ p.maxAccountTxs
  account_pos : 0 < p.maxAccountTxs

theorem len_remove_le (l : TxList) (n : UInt64) : (l.remove n).len ≤ l.len :=
  size_erase_le

theorem listAt_congr (hl : p'.lists = p.lists) (r : Ref) : p'.listAt r = p.listAt r := by
  rw [listAt, listAt, hl]

namespace Sound

theorem congr (h : Sound sha3 ordered spare p) (hidx : Indexed sha3 ordered p')
    (ha : p'.all = p.all) (hp : p'.pending = p.pending) (hl : p'.lists = p.lists)
    (hs : p'.maxSize = p.maxSize) (hm : p'.maxAccountTxs = p.maxAccountTxs) :
    Sound sha3 ordered spare p' where
  toIndexed := hidx
  toListed := by rw [ha]; exact h.toListed.congr hp hl
  nonempty {a r} := by rw [hp, listAt_congr hl]; exact h.nonempty
  size_le := by rw [ha, hs]; exact h.size_le
  account_le {a r} := by rw [hp, listAt_congr hl, hm]; exact h.account_le
  account_pos := by rw [hm]; exact h.account_pos

theorem weaken (h : Sound sha3 ordered spare p) (r : Ref) : Sound sha3 ordered (insert r spare) p :=
  { h with nonempty := fun hr hns => h.nonempty hr fun hs => hns (.inr hs) }

theorem settle (h : Sound sha3 ordered (insert r spare) p) (hlen : (p.listAt r).len ≠ 0) :
    Sound sha3 ordered spare p :=
  { h with
    nonempty := fun {a r'} hr hns => by
      by_cases hrr : r' = r
      · exact hrr ▸ hlen
      · exact h.nonempty hr fun hs => hs.elim hrr hns }

theorem pending_of_all (h : Sound sha3 ordered spare p)
    (hall : p.all[txHash sha3 tx]? = some tx) : ∃ r, p.pending[tx.fromAddr]? = some r := by
  obtain ⟨r, hr, -⟩ := (h.toListed.mem tx).mp hall
  exact ⟨r, hr⟩

/-! ## Taking a transaction out -/

/-- `q` is the pool with a transaction gone from everything but its list. -/
structure Gone (sha3 : Bytes → Hash) (ordered : Prop) (p : TxPool) (tx : Transaction) (q : TxPool) :
    Prop where
  indexed : Indexed sha3 ordered q
  all : q.all = p.all.erase (txHash sha3 tx)
  pending : q.pending = p.pending
  lists : q.lists = p.lists
  maxSize : q.maxSize = p.maxSize
  maxAccountTxs : q.maxAccountTxs = p.maxAccountTxs

theorem gone_forget (h : Sound sha3 ordered spare p) (tx : Transaction) :
    Gone sha3 ordered p tx (p.forget sha3 (txHash sha3 tx)) :=
  ⟨h.toIndexed.forget _, rfl, rfl, rfl, rfl, rfl⟩

theorem setList (h : Sound sha3 ordered spare p) (hg : Gone sha3 ordered p tx q)
    (hr : p.pending[tx.fromAddr]? = some r) (hall : p.all[txHash sha3 tx]? = some tx) :
    Sound sha3 ordered (insert r spare) (q.setList r ((p.listAt r).remove tx.nonce)) := by
  have hvalid : r < q.lists.cells.length := by rw [hg.lists]; exact h.tidy.valid hr
  have hat := listAt_congr hg.lists
  refine
    { toIndexed := hg.indexed.congr rfl rfl rfl rfl, toListed := ?_, nonempty := ?_, size_le := ?_,
      account_le := ?_, account_pos := hg.maxAccountTxs ▸ h.account_pos }
  · have hlisted : Listed sha3 p.all q := h.toListed.congr hg.pending hg.lists
    have := hlisted.remove (r := r) (by rw [hg.pending]; exact hr) hall
    rw [hat, ← hg.all] at this
    exact this
  · intro a r' hr' hne
    have hrr : r ≠ r' := fun he => hne (.inl he.symm)
    rw [listAt_setList_ne hrr, hat]
    change q.pending[a]? = some r' at hr'
    rw [hg.pending] at hr'
    exact h.nonempty hr' fun hs => hne (.inr hs)
  · change (q.all.size : Int) ≤ q.maxSize
    rw [hg.all, hg.maxSize]
    have := size_erase_le (t := p.all) (k := txHash sha3 tx)
    have := h.size_le
    omega
  · intro a r' hr'
    change q.pending[a]? = some r' at hr'
    rw [hg.pending] at hr'
    change _ ≤ q.maxAccountTxs
    rw [hg.maxAccountTxs]
    have hle := h.account_le hr'
    by_cases hrr : r = r'
    · subst hrr
      rw [listAt_setList_self hvalid]
      have := len_remove_le (p.listAt r) tx.nonce
      omega
    · rw [listAt_setList_ne hrr, hat]
      exact hle

theorem removeListed (h : Sound sha3 ordered spare p) (hr : p.pending[tx.fromAddr]? = some r)
    (hall : p.all[txHash sha3 tx]? = some tx) :
    Sound sha3 ordered (insert r spare) (p.removeListed sha3 r tx) :=
  h.setList (h.gone_forget tx) hr hall

theorem dropEmpty (h : Sound sha3 ordered (insert r spare) p) (hr : p.pending[addr]? = some r) :
    Sound sha3 ordered spare (p.dropEmpty addr r) := by
  have hlisted := h.toListed.dropEmpty hr
  unfold TxPool.dropEmpty at hlisted ⊢
  split_ifs at hlisted ⊢ with hempty
  · refine
      { toIndexed := h.toIndexed.congr rfl rfl rfl rfl, toListed := hlisted, nonempty := ?_,
        size_le := h.size_le, account_le := ?_, account_pos := h.account_pos }
    · intro a r' hr' hns
      dsimp only at hr'
      rw [Fmap.getElem?_erase] at hr'
      split_ifs at hr' with ha
      refine h.nonempty hr' fun hs => hs.elim (fun hrr => ?_) hns
      exact ha (h.tidy.apart hr (hrr ▸ hr'))
    · intro a r' hr'
      dsimp only at hr'
      rw [Fmap.getElem?_erase] at hr'
      split_ifs at hr'
      exact h.account_le hr'
  · exact h.settle hempty

/-- The list of the sender after a removal, dropped if it became empty. -/
theorem unlist_eq (hr : q.pending[addr]? = some r) (n : UInt64) :
    q.unlist addr n = (q.setList r ((q.listAt r).remove n)).dropEmpty addr r := by
  rw [TxPool.unlist, hr]

theorem unlist (h : Sound sha3 ordered spare p) (hg : Gone sha3 ordered p tx q)
    (hall : p.all[txHash sha3 tx]? = some tx) :
    Sound sha3 ordered spare (q.unlist tx.fromAddr tx.nonce) := by
  obtain ⟨r, hr⟩ := h.pending_of_all hall
  have hrq : q.pending[tx.fromAddr]? = some r := by rw [hg.pending]; exact hr
  rw [unlist_eq hrq, listAt_congr hg.lists]
  exact (h.setList hg hr hall).dropEmpty hrq

theorem forget_absent (h : Sound sha3 ordered spare p) {hash : Hash} (hnone : p.all[hash]? = none) :
    Sound sha3 ordered spare (p.forget sha3 hash) :=
  h.congr (h.toIndexed.forget hash) (Fmap.erase_of_getElem?_eq_none hnone) rfl rfl rfl rfl

theorem removeHash (h : Sound sha3 ordered ∅ p) (hash : Hash) :
    Sound sha3 ordered ∅ (p.removeHash sha3 hash) := by
  unfold TxPool.removeHash
  cases hall : p.all[hash]? with
  | none => exact h
  | some tx =>
    obtain rfl := h.keyed _ _ hall
    exact h.unlist (h.gone_forget tx) hall

theorem remove (h : Sound sha3 ordered ∅ p) (hash : Hash) :
    Sound sha3 ordered ∅ (p.remove sha3 hash) := by
  unfold TxPool.remove
  split_ifs
  · exact h
  · exact h.removeHash hash

theorem foldl_of_step {ε : Type} {step : TxPool → ε → TxPool}
    (hstep : ∀ p e, Sound sha3 ordered ∅ p → Sound sha3 ordered ∅ (step p e))
    (h : Sound sha3 ordered ∅ p) (es : List ε) : Sound sha3 ordered ∅ (es.foldl step p) := by
  induction es generalizing p with
  | nil => exact h
  | cons e rest ih => exact ih (hstep p e h)

theorem removeConfirmed (h : Sound sha3 ordered ∅ p) (hashes : List Hash) :
    Sound sha3 ordered ∅ (p.removeConfirmed sha3 hashes) := by
  unfold TxPool.removeConfirmed
  split_ifs
  · exact h
  · exact foldl_of_step (fun _ hash hq => hq.removeHash hash) h hashes

/-! ## Removals over a list -/

theorem listAt_removeListed (hr : r < p.lists.cells.length) :
    (p.removeListed sha3 r tx).listAt r = (p.listAt r).remove tx.nonce :=
  listAt_setList_self (p := p.forget sha3 (txHash sha3 tx)) hr _

theorem pending_foldl_removeListed (txs : List Transaction) :
    (txs.foldl (TxPool.removeListed sha3 r) p).pending = p.pending := by
  induction txs generalizing p with
  | nil => rfl
  | cons tx rest ih => rw [List.foldl_cons, ih]; rfl

theorem foldl_removeListed (h : Sound sha3 ordered (insert r spare) p)
    (hr : p.pending[addr]? = some r) {txs : List Transaction}
    (hmem : ∀ tx ∈ txs, (p.listAt r).txs[tx.nonce]? = some tx) (hnodup : (txs.map (·.nonce)).Nodup)
    : Sound sha3 ordered (insert r spare) (txs.foldl (TxPool.removeListed sha3 r) p) := by
  induction txs generalizing p with
  | nil => exact h
  | cons tx rest ih =>
    have hget := hmem tx (List.mem_cons_self ..)
    obtain rfl := (h.placed hr hget).1
    have hall := (h.toListed.mem tx).mpr ⟨r, hr, hget⟩
    have hstep := h.removeListed hr hall
    rw [Set.insert_eq_of_mem (Set.mem_insert r spare)] at hstep
    rw [List.map_cons, List.nodup_cons] at hnodup
    refine ih hstep hr (fun tx' htx' => ?_) hnodup.2
    have hne : tx.nonce ≠ tx'.nonce := fun he => hnodup.1 (he ▸ List.mem_map_of_mem htx')
    rw [listAt_removeListed (h.tidy.valid hr), TxList.remove, Fmap.getElem?_erase_ne _ hne]
    exact hmem tx' (List.mem_cons_of_mem _ htx')

theorem mem_all {l : TxList} {tx : Transaction}
    (hl : ∀ {n : UInt64} {tx}, l.txs[n]? = some tx → tx.nonce = n) (htx : tx ∈ l.all) :
    l.txs[tx.nonce]? = some tx := by
  obtain ⟨⟨n, tx'⟩, hmem, rfl⟩ := List.mem_map.mp htx
  have hget := mem_toList_iff_getElem?_eq_some.mp hmem
  rw [hl hget]
  exact hget

theorem nodup_all {l : TxList} (hl : ∀ {n : UInt64} {tx}, l.txs[n]? = some tx → tx.nonce = n) :
    (l.all.map (·.nonce)).Nodup := by
  have hkeys : l.all.map (·.nonce) = l.txs.toList.map Prod.fst := by
    rw [TxList.all, List.map_map]
    refine List.map_congr_left fun e he => ?_
    exact hl (mem_toList_iff_getElem?_eq_some.mp he)
  rw [hkeys, map_fst_toList_eq_keys]
  exact nodup_keys

/-- Some transactions of a sender removed, and the list dropped if it is
empty. -/
theorem removeSublist (h : Sound sha3 ordered ∅ p) (hr : p.pending[addr]? = some r)
    {txs : List Transaction} (hsub : ∀ tx ∈ txs, tx ∈ (p.listAt r).all)
    (hnodup : (txs.map (·.nonce)).Nodup) :
    Sound sha3 ordered ∅ ((txs.foldl (TxPool.removeListed sha3 r) p).dropEmpty addr r) := by
  have hfold := (h.weaken r).foldl_removeListed hr
    (fun tx htx => mem_all (fun hget => (h.placed hr hget).2) (hsub tx htx)) hnodup
  exact hfold.dropEmpty (by rw [pending_foldl_removeListed]; exact hr)

/-- A step per sender that only touches the sender's own entry. -/
theorem foldl_senders {σ : Type} {step : σ → Address × Ref → σ} (pool : σ → TxPool)
    (hstep : ∀ s e, Sound sha3 ordered ∅ (pool s) → (pool s).pending[e.1]? = some e.2 →
      Sound sha3 ordered ∅ (pool (step s e)) ∧
        ∀ a : Address, a ≠ e.1 → (pool (step s e)).pending[a]? = (pool s).pending[a]?)
    {senders : List (Address × Ref)} {s : σ} (h : Sound sha3 ordered ∅ (pool s))
    (hmem : ∀ e ∈ senders, (pool s).pending[e.1]? = some e.2)
    (hnodup : (senders.map Prod.fst).Nodup) :
    Sound sha3 ordered ∅ (pool (senders.foldl step s)) := by
  induction senders generalizing s with
  | nil => exact h
  | cons e rest ih =>
    obtain ⟨hsound, hkeep⟩ := hstep s e h (hmem e (List.mem_cons_self ..))
    rw [List.map_cons, List.nodup_cons] at hnodup
    refine ih hsound (fun e' he' => ?_) hnodup.2
    rw [hkeep e'.1 fun heq => hnodup.1 (heq ▸ List.mem_map_of_mem he')]
    exact hmem e' (List.mem_cons_of_mem _ he')

theorem pending_dropEmpty_ne {a : Address} (hne : a ≠ addr) :
    (p.dropEmpty addr r).pending[a]? = p.pending[a]? := by
  unfold TxPool.dropEmpty
  split_ifs
  · exact Fmap.getElem?_erase_ne _ (Ne.symm hne)
  · rfl

theorem setState (h : Sound sha3 ordered ∅ p) (order : RangeOrder Address)
    (state : Option StateReader) : Sound sha3 ordered ∅ (p.setState sha3 order state) := by
  have h' : Sound sha3 ordered ∅ { p with state := state } :=
    h.congr (h.toIndexed.congr rfl rfl rfl rfl) rfl rfl rfl rfl rfl
  unfold TxPool.setState
  cases state with
  | none => exact h'
  | some state =>
    refine foldl_senders id (fun q e hq he => ?_) h'
      (fun e he => Fmap.mem_range.mp he) (Fmap.nodup_range _ _)
    constructor
    · refine hq.removeSublist he (fun tx htx => (List.mem_filter.mp htx).1) ?_
      exact (nodup_all fun hget => (hq.placed he hget).2).sublist
        ((List.filter_sublist).map _)
    · intro a hne
      rw [id, purgeSender, pending_dropEmpty_ne hne, pending_foldl_removeListed]
      rfl

/-! ## The zombie cleanup -/

theorem expire (h : Sound sha3 ordered ∅ c.2) (e : Hash × Int) :
    Sound sha3 ordered ∅ (TxPool.expire sha3 now limit c e).2 := by
  unfold TxPool.expire
  split_ifs
  · exact h
  · dsimp only
    cases hall : c.2.all[e.1]? with
    | none => exact h.forget_absent hall
    | some tx =>
      have hkey := h.keyed _ _ hall
      rw [← hkey] at hall ⊢
      exact h.unlist (h.gone_forget tx) hall

theorem foldl_expire (h : Sound sha3 ordered ∅ c.2) (es : List (Hash × Int)) :
    Sound sha3 ordered ∅ (es.foldl (TxPool.expire sha3 now limit) c).2 := by
  induction es generalizing c with
  | nil => exact h
  | cons e rest ih => exact ih (h.expire e)

theorem trim {maxPerAddress limit : Int} {c : Int × TxPool} {e : Address × Ref}
    (h : Sound sha3 ordered ∅ c.2) (he : c.2.pending[e.1]? = some e.2) :
    Sound sha3 ordered ∅ (TxPool.trim sha3 maxPerAddress limit c e).2 ∧
      ∀ a : Address, a ≠ e.1 →
        (TxPool.trim sha3 maxPerAddress limit c e).2.pending[a]? = c.2.pending[a]? := by
  unfold TxPool.trim
  dsimp only
  split_ifs
  · exact ⟨h, fun _ _ => rfl⟩
  · refine ⟨h.removeSublist he (fun tx htx => List.mem_reverse.mp (List.mem_of_mem_take htx)) ?_,
      fun a hne => ?_⟩
    · have hall := nodup_all fun hget => (h.placed he hget).2
      rw [← List.nodup_reverse, ← List.map_reverse] at hall
      exact hall.sublist ((List.take_sublist _ _).map _)
    · rw [pending_dropEmpty_ne hne, pending_foldl_removeListed]

theorem cleanup (h : Sound sha3 ordered ∅ p) (hashes : RangeOrder Hash)
    (senders : RangeOrder Address) (now : Int) :
    Sound sha3 ordered ∅ (p.cleanupZombieTransactions sha3 hashes senders now) := by
  unfold TxPool.cleanupZombieTransactions
  exact foldl_senders Prod.snd (fun c e hc he => hc.trim he) (h.foldl_expire _)
    (fun e he => Fmap.mem_range.mp he) (Fmap.nodup_range _ _)

end Sound

end Qau.Txpool.TxPool
