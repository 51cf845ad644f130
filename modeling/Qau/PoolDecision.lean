import Qau.PoolInsert

/-!
# How an insertion decides

An insertion decides in this order: whether a transaction has to make way
for the newcomer (`displaced`), whether the newcomer is refused before that
(`Blocked`), and, with the old transaction already gone, whether the
sender's list takes it (`Takes`). `addEntry_spec` and `insertVerified_spec`
say so of the two insertions of the source.

A call keeps the reference to the sender's list that it read first. If what
makes way is the only transaction of that very sender, the list is detached
and the newcomer goes into a list nobody finds (`Detached`). Otherwise the
invariant is kept (`Decides.sound`).
-/

namespace Qau.Txpool.TxPool

open Std.ExtTreeMap

open HeapInterface

variable {sha3 : Bytes → Hash} {ordered : Prop} {spare : Set Ref} {p q refused : TxPool} {r : Ref}
  {tx low old : Transaction} {now : Int} {all : Fmap Hash Transaction}

/-! ## The decisions -/

/-- The list of the sender. -/
def ownList (p : TxPool) (tx : Transaction) : TxList :=
  match p.pending[tx.fromAddr]? with
  | none => {}
  | some r => p.listAt r

/-- The transaction with the same sender and nonce. -/
def slot (p : TxPool) (tx : Transaction) : Option Transaction := (p.ownList tx).get tx.nonce

/-- The transaction that makes way: one of the same nonce that is outbid, or
the lowest of a full pool if it is outpriced. -/
def displaced (p : TxPool) (tx : Transaction) : Option Transaction :=
  match p.slot tx with
  | some old => if p.outbids old tx then some old else none
  | none =>
    if p.maxSize ≤ p.all.size then
      p.evictionHeap.peek.filter fun low =>
        p.evictionThreshold low < effectiveGasPriceForSorting tx
    else none

/-- The transaction is refused before any other makes way. -/
def Blocked (p : TxPool) (tx : Transaction) : Prop :=
  p.displaced tx = none ∧ ((p.slot tx).isSome ∨ p.maxSize ≤ p.all.size)

/-- The sender's list when the displaced transaction is gone. -/
def restList (p : TxPool) (tx : Transaction) : TxList :=
  match p.displaced tx with
  | none => p.ownList tx
  | some d => if d.fromAddr = tx.fromAddr then (p.ownList tx).remove d.nonce else p.ownList tx

/-- The list takes the transaction: there is a slot, and the nonce is not too
far ahead. -/
def Takes (p : TxPool) (tx : Transaction) : Prop :=
  ((p.restList tx).len : Int) < p.maxAccountTxs ∧ (p.addToList (p.restList tx) tx).isOk

/-- The pooled transactions without the displaced one. -/
def without (sha3 : Bytes → Hash) (p : TxPool) (tx : Transaction) : Fmap Hash Transaction :=
  match p.displaced tx with
  | none => p.all
  | some d => p.all.erase (txHash sha3 d)

/-- The displaced transaction is the only one of the sender, and the list goes
with it. -/
def Detached (p : TxPool) (tx : Transaction) : Prop :=
  p.slot tx = none ∧ ∃ d ∈ p.displaced tx, d.fromAddr = tx.fromAddr ∧ (p.ownList tx).len < 2

theorem ownList_some (hr : p.pending[tx.fromAddr]? = some r) : p.ownList tx = p.listAt r := by
  rw [ownList, hr]

theorem ownList_none (hr : p.pending[tx.fromAddr]? = none) : p.ownList tx = {} := by
  rw [ownList, hr]

theorem slot_none_of_pending (hr : p.pending[tx.fromAddr]? = none) : p.slot tx = none := by
  rw [slot, ownList_none hr]; simp [TxList.get]

theorem displaced_slot (hslot : p.slot tx = some old) :
    p.displaced tx = if p.outbids old tx then some old else none := by
  rw [displaced, hslot]

theorem displaced_new (hslot : p.slot tx = none) : p.displaced tx =
    if p.maxSize ≤ p.all.size then p.evictionHeap.peek.filter fun low =>
      p.evictionThreshold low < effectiveGasPriceForSorting tx else none := by
  rw [displaced, hslot]

theorem not_blocked_of_displaced (hd : p.displaced tx = some old) : ¬ Blocked p tx := by
  rintro ⟨hnone, -⟩
  rw [hd] at hnone
  exact absurd hnone nofun

/-- Room for a new nonce: refused, there already, or made by an eviction. -/
theorem makeRoom_new (sha3 : Bytes → Hash) (hslot : p.slot tx = none) :
    (Blocked p tx ∧ p.makeRoom sha3 false tx = (false, p)) ∨
      (¬ Blocked p tx ∧ p.displaced tx = none ∧ p.makeRoom sha3 false tx = (true, p)) ∨
      ∃ low, p.evictionHeap.peek = some low ∧ p.displaced tx = some low ∧
        p.makeRoom sha3 false tx = (true, p.evict sha3 low) := by
  have hdisp := displaced_new hslot
  unfold makeRoom
  by_cases hfull : p.maxSize ≤ p.all.size
  · rw [if_pos ⟨rfl, hfull⟩, evictLowest]
    rw [if_pos hfull] at hdisp
    cases hpeek : p.evictionHeap.peek with
    | none =>
      rw [hpeek] at hdisp
      exact .inl ⟨⟨hdisp, .inr hfull⟩, rfl⟩
    | some low =>
      rw [hpeek, Option.filter_some] at hdisp
      dsimp only
      split_ifs with hprice
      · rw [if_neg (by simpa using hprice)] at hdisp
        exact .inl ⟨⟨hdisp, .inr hfull⟩, rfl⟩
      · rw [if_pos (by simpa using hprice)] at hdisp
        exact .inr (.inr ⟨low, rfl, hdisp, rfl⟩)
  · rw [if_neg fun h => hfull h.2]
    rw [if_neg hfull] at hdisp
    refine .inr (.inl ⟨?_, hdisp, rfl⟩)
    rintro ⟨-, hs | hf⟩
    · rw [hslot] at hs
      exact absurd hs nofun
    · exact hfull hf

/-! ## What makes way -/

theorem Sound.of_slot (h : Sound sha3 ordered spare p) (hslot : p.slot tx = some old) :
    old.fromAddr = tx.fromAddr ∧ old.nonce = tx.nonce ∧ p.all[txHash sha3 old]? = some old := by
  cases hr : p.pending[tx.fromAddr]? with
  | none => exact absurd ((slot_none_of_pending hr).symm.trans hslot) nofun
  | some r =>
    rw [slot, ownList_some hr] at hslot
    obtain ⟨hfrom, hnonce⟩ := h.placed hr hslot
    refine ⟨hfrom, hnonce, (h.toListed.mem old).mpr ⟨r, ?_, ?_⟩⟩
    · rw [hfrom]; exact hr
    · rw [hnonce]; exact hslot

/-- What makes way is pooled: it is the one in the slot, or the lowest of a
full pool. -/
theorem Sound.displaced_cases (h : Sound sha3 ordered spare p) (hd : p.displaced tx = some old) :
    p.all[txHash sha3 old]? = some old ∧
      (p.slot tx = some old ∧ p.outbids old tx = true ∨
        p.slot tx = none ∧ p.maxSize ≤ p.all.size ∧ p.evictionHeap.peek = some old) := by
  cases hslot : p.slot tx with
  | some d =>
    rw [displaced_slot hslot] at hd
    split_ifs at hd with hbid
    cases hd
    exact ⟨(h.of_slot hslot).2.2, .inl ⟨rfl, hbid⟩⟩
  | none =>
    rw [displaced_new hslot] at hd
    split_ifs at hd with hfull
    have hpeek := (Option.filter_eq_some_iff.mp hd).1
    exact ⟨h.all_peek hpeek, .inr ⟨rfl, hfull, hpeek⟩⟩

theorem Sound.size_without (h : Sound sha3 ordered spare p) (hb : ¬ Blocked p tx) :
    ((p.without sha3 tx).size : Int) < p.maxSize := by
  rw [without]
  cases hd : p.displaced tx with
  | none => exact not_le.mp fun hfull => hb ⟨hd, .inr hfull⟩
  | some d =>
    have hcontains : p.all.contains (txHash sha3 d) = true := by
      rw [← isSome_getElem?_eq_contains, (h.displaced_cases hd).1]; rfl
    have := size_pos_of_contains hcontains
    have := h.size_le
    dsimp only
    rw [size_erase, if_pos hcontains]
    omega

theorem without_subset {hash : Hash} {t : Transaction}
    (hget : (p.without sha3 tx)[hash]? = some t) : p.all[hash]? = some t := by
  rw [without] at hget
  split at hget
  · exact hget
  · rw [Fmap.getElem?_erase] at hget
    split_ifs at hget
    exact hget

theorem Sound.restList_free (h : Sound sha3 ordered spare p) (hb : ¬ Blocked p tx) :
    (p.restList tx).txs[tx.nonce]? = none := by
  have hown : p.slot tx = none → ∀ n, ((p.ownList tx).remove n).txs[tx.nonce]? = none := by
    intro hslot n
    rw [TxList.remove, Fmap.getElem?_erase]
    split_ifs
    · rfl
    · exact hslot
  rw [restList]
  cases hd : p.displaced tx with
  | none =>
    cases hslot : p.slot tx with
    | none => exact hslot
    | some old => exact absurd ⟨hd, .inl (by rw [hslot]; rfl)⟩ hb
  | some d =>
    rcases (h.displaced_cases hd).2 with ⟨hslot, -⟩ | ⟨hslot, -⟩
    · obtain ⟨hfrom, hnonce, -⟩ := h.of_slot hslot
      dsimp only
      rw [if_pos hfrom, TxList.remove, hnonce]
      exact Fmap.getElem?_erase_self _ _
    · dsimp only
      split_ifs
      · exact hown hslot d.nonce
      · exact hslot

/-- A sender without a list is not the sender of what makes way. -/
theorem Sound.displaced_from (h : Sound sha3 ordered spare p) (hr : p.pending[tx.fromAddr]? = none)
    (hd : p.displaced tx = some old) : old.fromAddr ≠ tx.fromAddr := by
  obtain ⟨rl, hrl⟩ := h.pending_of_all (h.displaced_cases hd).1
  intro hfrom
  rw [hfrom, hr] at hrl
  exact absurd hrl nofun

theorem Sound.restList_none (h : Sound sha3 ordered spare p) (hr : p.pending[tx.fromAddr]? = none) :
    p.restList tx = {} := by
  rw [restList]
  cases hd : p.displaced tx with
  | none => exact ownList_none hr
  | some d => exact (if_neg (h.displaced_from hr hd)).trans (ownList_none hr)

/-! ## The pool with room for the newcomer -/

/-- The pool `q` from which the displaced transaction is gone, with the list
at `r` for the newcomer. The list is the sender's unless it was detached. -/
structure Opened (sha3 : Bytes → Hash) (ordered : Prop) (p : TxPool) (tx : Transaction)
    (q : TxPool) (r : Ref) : Prop where
  blocked : ¬ Blocked p tx
  all : q.all = p.without sha3 tx
  indexed : Indexed sha3 ordered q
  listed : Listed sha3 q.all q
  world : SameWorld p q
  list : q.listAt r = p.restList tx
  detached : Detached p tx → ∀ a : Address, q.pending[a]? ≠ some r
  attached : ¬ Detached p tx →
    Sound sha3 ordered (insert r ∅) q ∧ q.pending[tx.fromAddr]? = some r

section
variable (h : Sound sha3 ordered ∅ p) (hr : p.pending[tx.fromAddr]? = some r)
include h hr

theorem Sound.opened_replace (hget : (p.listAt r).get tx.nonce = some old)
    (hbid : p.outbids old tx = true) : Opened sha3 ordered p tx (p.removeListed sha3 r old) r := by
  have hslot : p.slot tx = some old := by rw [slot, ownList_some hr, hget]
  have hdisp : p.displaced tx = some old := by rw [displaced_slot hslot, if_pos hbid]
  obtain ⟨hfrom, -, hall⟩ := h.of_slot hslot
  have hsound := h.removeListed (by rw [hfrom]; exact hr) hall
  refine
    { blocked := not_blocked_of_displaced hdisp
      all := by rw [without, hdisp]; rfl
      indexed := hsound.toIndexed
      listed := hsound.toListed
      world := ⟨rfl, rfl, rfl, rfl, rfl, rfl, rfl⟩
      list := ?_
      detached := ?_
      attached := fun _ => ⟨hsound, hr⟩ }
  · rw [Sound.listAt_removeListed (h.tidy.valid hr), restList, hdisp, ownList_some hr]
    exact (if_pos hfrom).symm
  · rintro ⟨hnone, -⟩
    rw [hslot] at hnone
    exact absurd hnone nofun

theorem Sound.opened_self
    (hb : ¬ Blocked p tx) (hdisp : p.displaced tx = none) : Opened sha3 ordered p tx p r where
  blocked := hb
  all := by rw [without, hdisp]
  indexed := h.toIndexed
  listed := h.toListed
  world := .refl p
  list := by rw [restList, hdisp, ownList_some hr]
  detached := by
    rintro ⟨-, d, hd, -⟩
    rw [hdisp] at hd
    exact absurd hd nofun
  attached := fun _ => ⟨h.weaken r, hr⟩

/-- The lowest transaction of a full pool has made way; the sender's list
stays the sender's unless it held only that one. -/
theorem Sound.opened_evict (hslot : p.slot tx = none) (hpeek : p.evictionHeap.peek = some low)
    (hdisp : p.displaced tx = some low) : Opened sha3 ordered p tx (p.evict sha3 low) r := by
  have hsound := h.evict_sound hpeek
  obtain ⟨rl, hrl⟩ := h.pending_of_all (h.all_peek hpeek)
  have hev := h.evicted hrl
  refine
    { blocked := not_blocked_of_displaced hdisp
      all := by rw [without, hdisp]; exact hev.all
      indexed := hsound.toIndexed
      listed := hsound.toListed
      world := hev.world
      list := ?_
      detached := ?_
      attached := fun hnot => ⟨hsound.weaken r, h.pending_evict hpeek hr fun hfrom => ?_⟩ }
  · rw [restList, hdisp, ownList_some hr]
    dsimp only
    split_ifs with hfrom
    · rw [hfrom] at hrl
      obtain rfl : r = rl := Option.some.inj (hr.symm.trans hrl)
      exact hev.listAt_self
    · refine hev.listAt_ne fun he => hfrom ?_
      subst he
      exact h.tidy.apart hrl hr
  · rintro ⟨-, d, hd, hfrom, hlen⟩ a ha
    rw [hdisp, Option.mem_some_iff] at hd
    subst hd
    rw [hfrom] at hrl
    obtain rfl : r = rl := Option.some.inj (hr.symm.trans hrl)
    by_cases hfa : a = low.fromAddr
    · rw [hfa, hev.pending_self] at ha
      split_ifs at ha with h0
      have hcontains : (p.listAt r).txs.contains low.nonce = true := by
        rw [← isSome_getElem?_eq_contains,
          h.toListed.get (by rw [hfrom]; exact hr) (h.all_peek hpeek)]
        rfl
      rw [ownList_some hr, TxList.len] at hlen
      rw [TxList.len, TxList.remove, size_erase, if_pos hcontains] at h0
      omega
    · rw [hev.pending_ne hfa] at ha
      rw [← hfrom] at hr
      exact hfa (h.tidy.apart ha hr)
  · by_contra hlen
    refine hnot ⟨hslot, low, hdisp ▸ rfl, hfrom, ?_⟩
    rw [ownList_some hr]
    omega

end

theorem Sound.opened_new (h : Sound sha3 ordered ∅ p) (hr : p.pending[tx.fromAddr]? = none)
    (hb : ¬ Blocked p tx) (hq : Sound sha3 ordered (insert r ∅) q)
    (hall : q.all = p.without sha3 tx) (hw : SameWorld p q)
    (hpending : q.pending[tx.fromAddr]? = some r) (hlist : q.listAt r = {}) :
    Opened sha3 ordered p tx q r where
  blocked := hb
  all := hall
  indexed := hq.toIndexed
  listed := hq.toListed
  world := hw
  list := by rw [hlist, h.restList_none hr]
  detached := by
    rintro ⟨-, d, hd, hfrom, -⟩
    exact absurd hfrom (h.displaced_from hr hd)
  attached := fun _ => ⟨hq, hpending⟩

namespace Opened

section
variable (h : Opened sha3 ordered p tx q r)
include h

theorem new (hnew : p.all[txHash sha3 tx]? = none) : q.all[txHash sha3 tx]? = none := by
  rw [h.all]
  cases hget : (p.without sha3 tx)[txHash sha3 tx]? with
  | none => rfl
  | some t => exact absurd (hnew.symm.trans (without_subset hget)) nofun

theorem free (hp : Sound sha3 ordered ∅ p) : (q.listAt r).txs[tx.nonce]? = none := by
  rw [h.list]
  exact hp.restList_free h.blocked

/-- The queue with the newcomer is ordered if the larger one is. -/
theorem ranks (hp : Sound sha3 ordered ∅ p)
    (hr : RanksOn (pricedLess sha3) (p.priced.items ++ [tx])) :
    RanksOn (pricedLess sha3) (q.priced.items ++ [tx]) := by
  refine hr.subset fun a ha => ?_
  rcases List.mem_append.mp ha with ha | ha
  · have hall := (h.indexed.priced.mem a).mp ha
    rw [h.all] at hall
    exact List.mem_append_left _ ((hp.priced.mem a).mpr (without_subset hall))
  · exact List.mem_append_right _ ha

theorem addToList_eq : q.addToList (q.listAt r) tx = p.addToList (p.restList tx) tx := by
  rw [h.list, addToList, addToList, h.world.state]

end

end Opened

/-! ## The two insertions -/

/-- What follows an insertion that succeeded. -/
def andThen (finish : TxPool → Option String × TxPool) : Option String × TxPool → Option String × TxPool
  | (some e, p) => (some e, p)
  | (none, p) => finish p

theorem andThen_return (res : Option String × TxPool) : andThen (fun q => (none, q)) res = res := by
  obtain ⟨_ | _, _⟩ := res <;> rfl

/-- What an insertion does, given the pool it leaves when it refuses at once
and what it does last with the entered transaction. -/
structure Decides (sha3 : Bytes → Hash) (ordered : Prop) (now : Int) (p : TxPool) (tx : Transaction)
    (refused : TxPool) (finish : TxPool → Option String × TxPool) (res : Option String × TxPool) :
    Prop where
  blocked : Blocked p tx → ∃ e, res = (some e, refused)
  late : ¬ Blocked p tx → ¬ Takes p tx → ∃ e q r, Opened sha3 ordered p tx q r ∧ res = (some e, q)
  taken : ¬ Blocked p tx → Takes p tx →
    ∃ q r, Opened sha3 ordered p tx q r ∧ res = finish (q.enter sha3 now r tx)

section Decides
variable {finish : TxPool → Option String × TxPool} {res : Option String × TxPool}

theorem decides_blocked (hb : Blocked p tx) {e : String} (hres : res = (some e, refused)) :
    Decides sha3 ordered now p tx refused finish res :=
  ⟨fun _ => ⟨e, hres⟩, fun hn => absurd hb hn, fun hn => absurd hb hn⟩

/-- With the displaced transaction gone, the list decides. -/
theorem Opened.decides (h : Opened sha3 ordered p tx q r) (hnew : p.all[txHash sha3 tx]? = none)
    (hfull : q.maxAccountTxs ≤ (q.listAt r).len → ∃ e, res = (some e, q))
    (hplace : ¬ q.maxAccountTxs ≤ (q.listAt r).len → res = andThen finish (q.place sha3 now r tx)) :
    Decides sha3 ordered now p tx refused finish res := by
  have hlen : ((p.restList tx).len : Int) < p.maxAccountTxs ↔
      ¬ q.maxAccountTxs ≤ (q.listAt r).len := by
    rw [h.list, h.world.maxAccountTxs, not_le]
  refine ⟨fun hb => absurd hb h.blocked, fun _ ht => ?_, fun _ ht => ⟨q, r, h, ?_⟩⟩
  · by_cases hslots : q.maxAccountTxs ≤ (q.listAt r).len
    · obtain ⟨e, he⟩ := hfull hslots
      exact ⟨e, q, r, h, he⟩
    · cases hadd : q.addToList (q.listAt r) tx with
      | error e =>
        rw [place_error hadd h.indexed (h.new hnew)] at hplace
        exact ⟨e, q, r, h, hplace hslots⟩
      | ok l =>
        rw [h.addToList_eq] at hadd
        exact absurd ⟨hlen.mpr hslots, by rw [hadd]; rfl⟩ ht
  · obtain ⟨hslots, hok⟩ := ht
    rw [← h.addToList_eq] at hok
    cases hadd : q.addToList (q.listAt r) tx with
    | error e => rw [hadd] at hok; exact absurd hok nofun
    | ok l => rw [hplace (hlen.mp hslots), place_ok hadd]; rfl

theorem Sound.decides_replace (h : Sound sha3 ordered ∅ p) (hr : p.pending[tx.fromAddr]? = some r)
    (hget : (p.listAt r).get tx.nonce = some old) (hnew : p.all[txHash sha3 tx]? = none)
    (hunder : p.outbids old tx = false → ∃ e, res = (some e, refused))
    (hplace : p.outbids old tx = true →
      res = andThen finish ((p.removeListed sha3 r old).place sha3 now r tx)) :
    Decides sha3 ordered now p tx refused finish res := by
  have hslot : p.slot tx = some old := by rw [slot, ownList_some hr, hget]
  cases hbid : p.outbids old tx with
  | false =>
    obtain ⟨e, he⟩ := hunder hbid
    refine decides_blocked ⟨?_, .inl (by rw [hslot]; rfl)⟩ he
    rw [displaced_slot hslot, hbid]
    rfl
  | true =>
    exact (h.opened_replace hr hget hbid).decides hnew
      (fun hf => absurd hf (not_le.mpr (h.len_removeListed hr hget))) fun _ => hplace hbid

theorem Sound.decides_listed (h : Sound sha3 ordered ∅ p) (hr : p.pending[tx.fromAddr]? = some r)
    (hget : (p.listAt r).get tx.nonce = none) (hnew : p.all[txHash sha3 tx]? = none)
    (hrefused : p.makeRoom sha3 false tx = (false, p) → ∃ e, res = (some e, refused))
    (henter : ∀ q, p.makeRoom sha3 false tx = (true, q) → (q.listAt r).txs[tx.nonce]? = none →
      (q.maxAccountTxs ≤ (q.listAt r).len → ∃ e, res = (some e, q)) ∧
        (¬ q.maxAccountTxs ≤ (q.listAt r).len → res = andThen finish (q.place sha3 now r tx))) :
    Decides sha3 ordered now p tx refused finish res := by
  have hslot : p.slot tx = none := by rw [slot, ownList_some hr, hget]
  rcases makeRoom_new sha3 hslot with ⟨hb, heq⟩ | ⟨hb, hdisp, heq⟩ | ⟨low, hpeek, hdisp, heq⟩
  · obtain ⟨e, he⟩ := hrefused heq
    exact decides_blocked hb he
  · have hop := h.opened_self hr hb hdisp
    exact hop.decides hnew (henter _ heq (hop.free h)).1 (henter _ heq (hop.free h)).2
  · have hop := h.opened_evict hr hslot hpeek hdisp
    exact hop.decides hnew (henter _ heq (hop.free h)).1 (henter _ heq (hop.free h)).2

theorem all_evict (p : TxPool) (low : Transaction) :
    (p.evict sha3 low).all = p.all.erase (txHash sha3 low) := by
  unfold evict unlist
  split
  · rfl
  · rw [all_dropEmpty]; rfl

theorem Sound.addEntry_spec (h : Sound sha3 ordered ∅ p) (hnew : p.all[txHash sha3 tx]? = none) :
    Decides sha3 ordered now p tx p (·.register tx) (p.addEntry sha3 now tx) := by
  have hknown : ¬ p.all.contains (txHash sha3 tx) = true := by
    rw [← isSome_getElem?_eq_contains, hnew]; nofun
  have henter : ∀ {q : TxPool} {r : Ref},
      (q.maxAccountTxs ≤ (q.listAt r).len →
        ∃ e, andThen (·.register tx) (q.enterList sha3 now false r tx) = (some e, q)) ∧
      (¬ q.maxAccountTxs ≤ (q.listAt r).len →
        andThen (·.register tx) (q.enterList sha3 now false r tx) =
          andThen (·.register tx) (q.place sha3 now r tx)) := by
    intro q r
    rw [enterList, if_neg Bool.false_ne_true]
    exact ⟨fun hf => ⟨_, by rw [if_pos hf]; rfl⟩, fun hf => by rw [if_neg hf]⟩
  unfold addEntry
  rw [if_neg hknown]
  dsimp only
  cases hp : p.pending[tx.fromAddr]? with
  | none =>
    rw [Option.any_none]
    rcases makeRoom_new sha3 (slot_none_of_pending hp) with
      ⟨hb, heq⟩ | ⟨hb, hdisp, heq⟩ | ⟨low, hpeek, hdisp, heq⟩
    · rw [heq]
      exact decides_blocked hb rfl
    · have hop := h.opened_new hp hb (h.newList hp) (by rw [without, hdisp]; rfl)
        (sameWorld_newList p _) (pending_newList p _) (listAt_newList p _)
      rw [heq]
      exact hop.decides hnew henter.1 henter.2
    · obtain ⟨rl, hrl⟩ := h.pending_of_all (h.all_peek hpeek)
      have hop := h.opened_new hp (not_blocked_of_displaced hdisp)
        ((h.evict_sound hpeek).newList (h.pending_evict_none hpeek hp))
        (by rw [without, hdisp]; exact all_evict p low)
        ((h.evicted hrl).world.trans (sameWorld_newList _ _)) (pending_newList _ _) (listAt_newList _ _)
      rw [heq]
      exact hop.decides hnew henter.1 henter.2
  | some r =>
    rw [Option.any_some]
    cases hget : (p.listAt r).get tx.nonce with
    | none =>
      refine h.decides_listed hp hget hnew (fun heq => ?_) fun q heq _ => ?_
      · rw [Option.isSome_none, heq]
        exact ⟨_, rfl⟩
      · rw [Option.isSome_none, heq]
        exact henter
    | some old =>
      have hroom : p.makeRoom sha3 true tx = (true, p) := if_neg fun hf => absurd hf.1 nofun
      rw [Option.isSome_some, hroom]
      dsimp only [ensureList]
      rw [enterList, if_pos rfl, tryReplace, hget]
      dsimp only
      refine h.decides_replace hp hget hnew (fun hbid => ?_) fun hbid => ?_
      · rw [hbid]
        exact ⟨_, rfl⟩
      · rw [hbid]
        rfl

/-- The insertion of `AddVerified` ends as that of a batch, without
commitments, but a refused sender keeps its new list. -/
theorem Sound.insertVerified_spec (h : Sound sha3 ordered ∅ p)
    (hnew : p.all[txHash sha3 tx]? = none) :
    Decides sha3 ordered now p tx (p.ensureList tx.fromAddr p.pending[tx.fromAddr]?).2
      (fun q => (none, q)) (p.insertVerified sha3 now tx) := by
  have hknown : ¬ p.all.contains (txHash sha3 tx) = true := by
    rw [← isSome_getElem?_eq_contains, hnew]; nofun
  have henter : ∀ {q : TxPool} {r : Ref}, (q.listAt r).txs[tx.nonce]? = none →
      (q.maxAccountTxs ≤ (q.listAt r).len →
        ∃ e, q.enterVerified sha3 now r tx = (some e, q)) ∧
      (¬ q.maxAccountTxs ≤ (q.listAt r).len →
        q.enterVerified sha3 now r tx = andThen (fun q => (none, q)) (q.place sha3 now r tx)) := by
    intro q r hget
    rw [enterVerified, tryReplace, show (q.listAt r).get tx.nonce = none from hget, andThen_return]
    exact ⟨fun hf => ⟨_, by rw [if_pos hf]⟩, fun hf => by rw [if_neg hf]⟩
  unfold insertVerified
  rw [if_neg hknown]
  cases hp : p.pending[tx.fromAddr]? with
  | none =>
    have hget : ((p.newList tx.fromAddr).2.listAt (p.newList tx.fromAddr).1).txs[tx.nonce]? = none := by
      rw [listAt_newList]; simp
    have hslot := slot_none_of_pending hp
    have hslot' : (p.newList tx.fromAddr).2.slot tx = none := by
      rw [slot, ownList_some (pending_newList p tx.fromAddr)]
      exact hget
    have hsame : (p.newList tx.fromAddr).2.displaced tx = p.displaced tx := by
      rw [displaced_new hslot, displaced_new hslot']
      rfl
    have hblocked : Blocked (p.newList tx.fromAddr).2 tx ↔ Blocked p tx := by
      rw [Blocked, Blocked, hsame, hslot, hslot']
      rfl
    have hsound := h.newList hp
    dsimp only [ensureList]
    rw [show TxList.get _ tx.nonce = none from hget, Option.isSome_none,
      if_neg Bool.false_ne_true]
    dsimp only
    rcases makeRoom_new sha3 hslot' with ⟨hb, heq⟩ | ⟨hb, hdisp, heq⟩ | ⟨low, hpeek, hdisp, heq⟩
    · rw [heq]
      exact decides_blocked (hblocked.mp hb) rfl
    · have hop := h.opened_new hp (mt hblocked.mpr hb) hsound
        (by rw [without, ← hsame, hdisp]; rfl)
        (sameWorld_newList p _) (pending_newList p _) (listAt_newList p _)
      rw [heq]
      exact hop.decides hnew (henter hget).1 (henter hget).2
    · rw [hsame] at hdisp
      have hfrom : low.fromAddr ≠ tx.fromAddr := h.displaced_from hp hdisp
      obtain ⟨rl, hrl⟩ := hsound.pending_of_all (hsound.all_peek hpeek)
      have hev := hsound.evicted hrl
      have hlist : ((p.newList tx.fromAddr).2.evict sha3 low).listAt (p.newList tx.fromAddr).1
          = {} := by
        rw [hev.listAt_ne, listAt_newList]
        exact fun he => hfrom (hsound.tidy.apart hrl (he ▸ pending_newList p _))
      have hop := h.opened_new hp (not_blocked_of_displaced hdisp) (hsound.evict_sound hpeek)
        (by rw [without, hdisp]; exact all_evict _ low) ((sameWorld_newList p _).trans hev.world)
        (hsound.pending_evict hpeek (pending_newList p _) fun he => absurd he hfrom) hlist
      rw [heq]
      exact hop.decides hnew (henter (hop.free h)).1 (henter (hop.free h)).2
  | some r =>
    dsimp only [ensureList]
    cases hget : (p.listAt r).get tx.nonce with
    | none =>
      rw [Option.isSome_none, if_neg Bool.false_ne_true]
      dsimp only
      refine h.decides_listed hp hget hnew (fun heq => ?_) fun q heq hfree => ?_
      · rw [heq]
        exact ⟨_, rfl⟩
      · rw [heq]
        exact henter hfree
    | some old =>
      rw [Option.isSome_some, if_pos rfl, tryReplace, hget]
      dsimp only
      refine h.decides_replace hp hget hnew (fun hbid => ?_) fun hbid => ?_
      · rw [hbid]
        exact ⟨_, rfl⟩
      · have hroom : (p.removeListed sha3 r old).makeRoom sha3 true tx =
            (true, p.removeListed sha3 r old) := if_neg fun hf => absurd hf.1 nofun
        rw [hbid, if_pos rfl]
        dsimp only
        rw [hroom]
        dsimp only
        rw [enterVerified, if_neg, andThen_return]
        exact not_le.mpr (h.len_removeListed hp hget)

/-! ## The invariant after an insertion -/

/-- An insertion that does not detach its list keeps the invariant. -/
theorem Decides.sound (hdec : Decides sha3 ordered now p tx refused finish res)
    (h : Sound sha3 ordered ∅ p) (hnew : p.all[txHash sha3 tx]? = none) (hadm : Admissible p tx)
    (hatt : ¬ Detached p tx) (hrefused : Blocked p tx → Sound sha3 ordered ∅ refused)
    (hfinish : ∀ q, Sound sha3 ordered ∅ q → Sound sha3 ordered ∅ (finish q).2)
    (hord : ordered → RanksOn (pricedLess sha3) (p.priced.items ++ [tx])) :
    Sound sha3 ordered ∅ res.2 := by
  by_cases hb : Blocked p tx
  · obtain ⟨e, rfl⟩ := hdec.blocked hb
    exact hrefused hb
  by_cases ht : Takes p tx
  · obtain ⟨q, r, hop, rfl⟩ := hdec.taken hb ht
    obtain ⟨hq, hr⟩ := hop.attached hatt
    refine hfinish _ (hq.enter hr (hop.new hnew) (hop.free h) ?_ ?_ fun ho => hop.ranks h (hord ho))
    · rw [hop.all, hop.world.maxSize]
      exact h.size_without hb
    · rw [hop.list, hop.world.maxAccountTxs]
      exact ht.1
  · obtain ⟨e, q, r, hop, rfl⟩ := hdec.late hb ht
    refine (hop.attached hatt).1.settle fun hempty => ht ⟨?_, ?_⟩
    · rw [hop.list] at hempty
      rw [hempty]
      exact h.account_pos
    · rw [hop.list] at hempty
      rw [addToList_empty hempty hadm]
      rfl

end Decides

theorem addEntry_known (hknown : p.all[txHash sha3 tx]? ≠ none) :
    p.addEntry sha3 now tx = (none, p) :=
  if_pos (by rw [← isSome_getElem?_eq_contains]
             exact Option.isSome_iff_ne_none.mpr hknown)

theorem insertVerified_known (hknown : p.all[txHash sha3 tx]? ≠ none) :
    p.insertVerified sha3 now tx = (none, p) :=
  if_pos (by rw [← isSome_getElem?_eq_contains]
             exact Option.isSome_iff_ne_none.mpr hknown)

theorem Sound.addEntry (h : Sound sha3 ordered ∅ p) (hadm : Admissible p tx)
    (hatt : ¬ Detached p tx) (hord : ordered → RanksOn (pricedLess sha3) (p.priced.items ++ [tx])) :
    Sound sha3 ordered ∅ (p.addEntry sha3 now tx).2 := by
  by_cases hnew : p.all[txHash sha3 tx]? = none
  · exact (h.addEntry_spec hnew).sound h hnew hadm hatt (fun _ => h) (fun _ hq => hq.register tx) hord
  · rw [addEntry_known hnew]; exact h

theorem Sound.insertVerified (h : Sound sha3 ordered ∅ p) (hadm : Admissible p tx)
    (hatt : ¬ Detached p tx) (hwel : p.pending[tx.fromAddr]? = none → ¬ Blocked p tx)
    (hord : ordered → RanksOn (pricedLess sha3) (p.priced.items ++ [tx])) :
    Sound sha3 ordered ∅ (p.insertVerified sha3 now tx).2 := by
  by_cases hnew : p.all[txHash sha3 tx]? = none
  · refine (h.insertVerified_spec hnew).sound h hnew hadm hatt (fun hb => ?_) (fun _ hq => hq) hord
    cases hp : p.pending[tx.fromAddr]? with
    | none => exact absurd hb (hwel hp)
    | some r => exact h
  · rw [insertVerified_known hnew]; exact h

theorem Sound.state_addEntry (h : Sound sha3 ordered ∅ p) :
    (p.addEntry sha3 now tx).2.state = p.state := by
  by_cases hnew : p.all[txHash sha3 tx]? = none
  swap
  · rw [addEntry_known hnew]
  have hdec : Decides sha3 ordered now p tx p (·.register tx) (p.addEntry sha3 now tx) :=
    h.addEntry_spec hnew
  by_cases hb : Blocked p tx
  · obtain ⟨e, he⟩ := hdec.blocked hb
    rw [he]
  by_cases ht : Takes p tx
  · obtain ⟨q, r, hop, he⟩ := hdec.taken hb ht
    rw [he, TxPool.register]
    split
    · exact hop.world.state
    · split_ifs <;> exact hop.world.state
  · obtain ⟨e, q, r, hop, he⟩ := hdec.late hb ht
    rw [he]
    exact hop.world.state

end Qau.Txpool.TxPool
