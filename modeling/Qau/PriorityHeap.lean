import Mathlib.Logic.Equiv.Basic
import Mathlib.Order.Nat
import Mathlib.Tactic.Common

/-!
# Binary heaps behind an interface

The heap of Go's `container/heap`: the algorithm sees the items only through
`Len`, `Less`, `Swap`, `Push` and `Pop`, so that an implementation can keep
more than the items, such as a map from item to position. `Lawful` is what
an implementation owes. The order is then a matter of the index comparison
alone: `Ordered` is the heap order, `UpReady` and `DownReady` are the heap
order with one place to repair, and each round of a sift hands the place on.
Whatever `Swap` preserves, a sift preserves (`up_preserves`,
`down_preserves`), and a map between two implementations that agrees with
their operations agrees with the heap's (`Hom`).
-/

namespace Qau

variable {i j k m : Nat}

structure HeapInterface (σ α : Type) where
  len : σ → Nat
  less : σ → Nat → Nat → Bool
  swap : σ → Nat → Nat → σ
  push : σ → α → σ
  pop : σ → Option α × σ

namespace HeapInterface

variable {L : Nat → Nat → Bool}

def parent (i : Nat) : Nat := (i - 1) / 2

section
variable {σ α : Type} (H : HeapInterface σ α)

/-- `up`. The index shrinks in every round, so one more round than the index
is enough. -/
def up : Nat → σ → Nat → σ
  | 0, s, _ => s
  | fuel + 1, s, j =>
    if parent j = j ∨ H.less s j (parent j) = false then s
    else up fuel (H.swap s (parent j) j) (parent j)

/-- The child that `down` may lift: the right one if it is less. -/
def child (s : σ) (i n : Nat) : Nat :=
  if 2 * i + 2 < n ∧ H.less s (2 * i + 2) (2 * i + 1) then 2 * i + 2 else 2 * i + 1

/-- `down` on the first `n` items, with the place it ends at. -/
def down : Nat → σ → Nat → Nat → σ × Nat
  | 0, s, i, _ => (s, i)
  | fuel + 1, s, i, n =>
    if n ≤ 2 * i + 1 ∨ H.less s (H.child s i n) i = false then (s, i)
    else down fuel (H.swap s i (H.child s i n)) (H.child s i n) n

def heapPush (s : σ) (x : α) : σ := H.up (H.len s + 1) (H.push s x) (H.len s)

/-- `heap.Pop`; its callers never pop an empty heap. -/
def heapPop (s : σ) : Option α × σ :=
  let n := H.len s - 1
  H.pop (H.down (n + 1) (H.swap s 0 n) 0 n).1

/-- The items rearranged so that the one at `i` comes last. -/
def extract (s : σ) (i : Nat) : σ :=
  let n := H.len s - 1
  if n = i then s
  else
    let r := H.down (n + 1) (H.swap s i n) i n
    if i < r.2 then r.1 else H.up (i + 1) r.1 i

def heapRemove (s : σ) (i : Nat) : Option α × σ := H.pop (H.extract s i)

/-- What an implementation of the interface owes. -/
structure Lawful : Prop where
  len_swap : ∀ s i j, H.len (H.swap s i j) = H.len s
  less_swap : ∀ {s i j a b}, i < H.len s → j < H.len s → a < H.len s → b < H.len s →
    H.less (H.swap s i j) a b = H.less s (Equiv.swap i j a) (Equiv.swap i j b)
  len_push : ∀ s x, H.len (H.push s x) = H.len s + 1
  less_push : ∀ {s x a b}, a < H.len s → b < H.len s → H.less (H.push s x) a b = H.less s a b
  len_pop : ∀ s, H.len (H.pop s).2 = H.len s - 1
  less_pop : ∀ {s a b}, a < H.len s - 1 → b < H.len s - 1 →
    H.less (H.pop s).2 a b = H.less s a b

end

/-! ## The order of the indices -/

section
variable {n : Nat} {L L' : Nat → Nat → Bool}

/-- No item is less than its parent. -/
def Ordered (n : Nat) (L : Nat → Nat → Bool) : Prop :=
  ∀ k, 0 < k → k < n → L k (parent k) = false

/-- The items of a heap are in order. -/
def IsHeap {σ α : Type} (H : HeapInterface σ α) (s : σ) : Prop := Ordered (H.len s) (H.less s)

/-- The comparison is a strict weak order of the first `n` items. -/
structure Ranked (n : Nat) (L : Nat → Nat → Bool) : Prop where
  asymm : ∀ {i j}, i < n → j < n → L i j = true → L j i = false
  trans : ∀ {i j k}, i < n → j < n → k < n → L i j = false → L j k = false → L i k = false

/-- Only the item at `j` may be less than its parent. -/
structure UpReady (n : Nat) (L : Nat → Nat → Bool) (j : Nat) : Prop where
  others : ∀ {k}, 0 < k → k < n → k ≠ j → L k (parent k) = false
  grand : ∀ {c}, 0 < c → c < n → parent c = j → 0 < j → L c (parent j) = false

/-- Only the children of the item at `i` may be less than it. -/
structure DownReady (n : Nat) (L : Nat → Nat → Bool) (i : Nat) : Prop where
  others : ∀ {k}, 0 < k → k < n → parent k ≠ i → L k (parent k) = false
  grand : ∀ {c}, 0 < c → c < n → parent c = i → 0 < i → L c (parent i) = false

theorem parent_lt (hi : 0 < i) : parent i < i := by unfold parent; omega

theorem parent_eq_self : parent i = i ↔ i = 0 := by unfold parent; omega

theorem eq_child (hk : 0 < k) (hp : parent k = i) : k = 2 * i + 1 ∨ k = 2 * i + 2 := by
  unfold parent at hp; omega

/-- The comparison after a swap. -/
def swapped (L : Nat → Nat → Bool) (i j : Nat) : Nat → Nat → Bool :=
  fun a b => L (Equiv.swap i j a) (Equiv.swap i j b)

theorem swap_lt {a : Nat} (hi : i < n) (hj : j < n) (ha : a < n) : Equiv.swap i j a < n := by
  rw [Equiv.swap_apply_def]; split_ifs <;> assumption

theorem Ordered.congr (h : Ordered n L) (heq : ∀ a < n, ∀ b < n, L' a b = L a b) :
    Ordered n L' := fun k hk hkn => by
  rw [heq k hkn _ ((parent_lt hk).trans hkn)]; exact h k hk hkn

theorem Ordered.mono (h : Ordered n L) (hm : m ≤ n) : Ordered m L :=
  fun k hk hkm => h k hk (hkm.trans_le hm)

theorem Ranked.irrefl (h : Ranked n L) (hi : i < n) : L i i = false := by
  cases hii : L i i with
  | false => rfl
  | true => exact hii ▸ h.asymm hi hi hii

theorem Ranked.congr (h : Ranked n L) (heq : ∀ a < n, ∀ b < n, L' a b = L a b) : Ranked n L' where
  asymm hi hj hlt := by
    rw [heq _ hj _ hi]; rw [heq _ hi _ hj] at hlt; exact h.asymm hi hj hlt
  trans hi hj hk hij hjk := by
    rw [heq _ hi _ hk]; rw [heq _ hi _ hj] at hij; rw [heq _ hj _ hk] at hjk
    exact h.trans hi hj hk hij hjk

theorem Ranked.mono (h : Ranked n L) (hm : m ≤ n) : Ranked m L where
  asymm hi hj := h.asymm (hi.trans_le hm) (hj.trans_le hm)
  trans hi hj hk := h.trans (hi.trans_le hm) (hj.trans_le hm) (hk.trans_le hm)

theorem Ranked.swapped (h : Ranked n L) (hi : i < n) (hj : j < n) : Ranked n (swapped L i j) where
  asymm ha hb := h.asymm (swap_lt hi hj ha) (swap_lt hi hj hb)
  trans ha hb hc := h.trans (swap_lt hi hj ha) (swap_lt hi hj hb) (swap_lt hi hj hc)

theorem UpReady.congr (h : UpReady n L j) (hj : j < n)
    (heq : ∀ a < n, ∀ b < n, L' a b = L a b) : UpReady n L' j where
  others hk hkn hkj := by
    rw [heq _ hkn _ ((parent_lt hk).trans hkn)]; exact h.others hk hkn hkj
  grand hc hcn hcj h0 := by
    rw [heq _ hcn _ ((parent_lt h0).trans hj)]; exact h.grand hc hcn hcj h0

theorem DownReady.congr (h : DownReady n L i) (hi : i < n)
    (heq : ∀ a < n, ∀ b < n, L' a b = L a b) : DownReady n L' i where
  others hk hkn hki := by
    rw [heq _ hkn _ ((parent_lt hk).trans hkn)]; exact h.others hk hkn hki
  grand hc hcn hci h0 := by
    rw [heq _ hcn _ ((parent_lt h0).trans hi)]; exact h.grand hc hcn hci h0

theorem UpReady.ordered (h : UpReady n L j)
    (hj : 0 < j → L j (parent j) = false) : Ordered n L := by
  intro k hk hkn
  by_cases hkj : k = j
  · subst hkj; exact hj hk
  · exact h.others hk hkn hkj

/-- A round of `up`: the place to repair moves to the parent. -/
theorem UpReady.swapped (h : UpReady n L j) (hr : Ranked n L) (hj0 : 0 < j) (hj : j < n)
    (hlt : L j (parent j) = true) : UpReady n (swapped L (parent j) j) (parent j) := by
  have hp := parent_lt hj0
  have hpn := hp.trans hj
  have hself : L (parent j) j = false := hr.asymm hj hpn hlt
  have hsibling : ∀ {k}, 0 < k → k < n → k ≠ j → parent k = parent j → L k j = false := by
    intro k hk hkn hkj hkp
    have hkold := h.others hk hkn hkj
    rw [hkp] at hkold
    exact hr.trans hkn hpn hj hkold hself
  constructor
  · intro k hk hkn hkp
    simp only [HeapInterface.swapped]
    by_cases hkj : k = j
    · subst hkj
      rw [Equiv.swap_apply_right, Equiv.swap_apply_left]
      exact hself
    · rw [Equiv.swap_apply_of_ne_of_ne hkp hkj]
      by_cases hpk : parent k = parent j
      · rw [hpk, Equiv.swap_apply_left]
        exact hsibling hk hkn hkj hpk
      · by_cases hpj : parent k = j
        · rw [hpj, Equiv.swap_apply_right]
          exact h.grand hk hkn hpj hj0
        · rw [Equiv.swap_apply_of_ne_of_ne hpk hpj]
          exact h.others hk hkn hkj
  · intro c hc hcn hcp hp0
    have hpp := parent_lt hp0
    have hup : L (parent j) (parent (parent j)) = false := h.others hp0 hpn hp.ne
    simp only [HeapInterface.swapped]
    rw [Equiv.swap_apply_of_ne_of_ne hpp.ne (hpp.trans hp).ne]
    by_cases hcj : c = j
    · rw [hcj, Equiv.swap_apply_right]
      exact hup
    · have hcne : c ≠ parent j := fun he => by
        have := parent_lt hc; rw [hcp, he] at this; exact lt_irrefl _ this
      rw [Equiv.swap_apply_of_ne_of_ne hcne hcj]
      have hold := h.others hc hcn hcj
      rw [hcp] at hold
      exact hr.trans hcn hpn (hpp.trans hpn) hold hup

/-- A round of `down`: the lesser child is lifted and the place to repair
moves to it. Whether the item was less than its own parent no longer
matters. -/
theorem DownReady.swapped {c : Nat} (hr : Ranked n L) (hc0 : 0 < c) (hc : c < n)
    (hci : parent c = i) (hlt : L c i = true)
    (hleast : ∀ {k}, 0 < k → k < n → parent k = i → L k c = false)
    (hothers : ∀ {k}, 0 < k → k < n → parent k ≠ i → k ≠ i → L k (parent k) = false)
    (hgrand : ∀ {k}, 0 < k → k < n → parent k = i → 0 < i → L k (parent i) = false) :
    DownReady n (swapped L i c) c := by
  have hi : i < c := hci ▸ parent_lt hc0
  constructor
  · intro k hk hkn hkc
    simp only [HeapInterface.swapped]
    by_cases hki : k = i
    · have hpi := parent_lt (hki ▸ hk)
      rw [hki, Equiv.swap_apply_left, Equiv.swap_apply_of_ne_of_ne hpi.ne (hpi.trans hi).ne]
      exact hgrand hc0 hc hci (hki ▸ hk)
    · by_cases hkc' : k = c
      · rw [hkc', hci, Equiv.swap_apply_right, Equiv.swap_apply_left]
        exact hr.asymm hc (hi.trans hc) hlt
      · rw [Equiv.swap_apply_of_ne_of_ne hki hkc']
        by_cases hpi : parent k = i
        · rw [hpi, Equiv.swap_apply_left]
          exact hleast hk hkn hpi
        · rw [Equiv.swap_apply_of_ne_of_ne hpi hkc]
          exact hothers hk hkn hpi hki
  · intro k hk hkn hkc hc0'
    have hck : c < k := hkc ▸ parent_lt hk
    simp only [HeapInterface.swapped]
    rw [hci, Equiv.swap_apply_left, Equiv.swap_apply_of_ne_of_ne (hi.trans hck).ne' hck.ne']
    have hold := hothers hk hkn (by rw [hkc]; exact hi.ne') (hi.trans hck).ne'
    rwa [hkc] at hold

end

/-! ## The sifts -/

section
variable {σ α : Type} {H : HeapInterface σ α} {s : σ}

theorem up_preserves {P : σ → Prop} (hswap : ∀ {s i j}, i < m → j < m → P s → P (H.swap s i j)) :
    ∀ {fuel s j}, j < m → P s → P (H.up fuel s j)
  | 0, _, _, _, hP => hP
  | fuel + 1, s, j, hj, hP => by
      rw [up]
      split_ifs with hstop
      · exact hP
      · have hp : parent j < m :=
          (parent_lt (Nat.pos_of_ne_zero fun h0 => hstop (.inl (parent_eq_self.mpr h0)))).trans hj
        exact up_preserves hswap hp (hswap hp hj hP)

theorem child_lt {n : Nat} (h : ¬ n ≤ 2 * i + 1) : H.child s i n < n := by
  unfold child; split_ifs <;> omega

theorem parent_child (i n : Nat) : parent (H.child s i n) = i := by
  unfold child parent; split_ifs <;> omega

theorem child_gt (i n : Nat) : i < H.child s i n := by
  unfold child; split_ifs <;> omega

theorem down_preserves {P : σ → Prop} (hswap : ∀ {s i j}, i < m → j < m → P s → P (H.swap s i j)) :
    ∀ {fuel s i n}, n ≤ m → P s → P (H.down fuel s i n).1
  | 0, _, _, _, _, hP => hP
  | fuel + 1, s, i, n, hn, hP => by
      rw [down]
      split_ifs with hstop
      · exact hP
      · have hc := (child_lt (H := H) (s := s) fun h => hstop (.inl h)).trans_le hn
        exact down_preserves hswap hn (hswap ((child_gt i n).trans hc) hc hP)

theorem down_ge : ∀ {fuel s i n}, i ≤ (H.down fuel s i n).2
  | 0, _, _, _ => le_refl _
  | fuel + 1, s, i, n => by
      rw [down]
      split_ifs
      · exact le_refl _
      · exact (child_gt i n).le.trans down_ge

/-- What the swaps among the items that stay preserve holds of the heap with
the item at `i` moved to the end. -/
theorem extract_preserves {P : σ → Prop}
    (hswap : ∀ {s' a b}, a < H.len s - 1 → b < H.len s - 1 → P s' → P (H.swap s' a b))
    (hi : i < H.len s) (hlast : H.len s - 1 = i → P s)
    (hmove : i < H.len s - 1 → P (H.swap s i (H.len s - 1))) : P (H.extract s i) := by
  unfold extract
  dsimp only
  split_ifs with h h'
  · exact hlast h
  · exact down_preserves hswap le_rfl (hmove (by omega))
  · exact up_preserves hswap (by omega) (down_preserves hswap le_rfl (hmove (by omega)))

end

namespace Lawful
variable {σ α : Type} {H : HeapInterface σ α} {s : σ} {n : Nat}

theorem less_eq_swapped (law : H.Lawful) (hi : i < n) (hj : j < n) (hn : n ≤ H.len s) :
    ∀ a < n, ∀ b < n, H.less (H.swap s i j) a b = swapped (H.less s) i j a b :=
  fun _ ha _ hb => law.less_swap (hi.trans_le hn) (hj.trans_le hn) (ha.trans_le hn) (hb.trans_le hn)

theorem up_ordered (law : H.Lawful) : ∀ {fuel s j}, j < fuel → n ≤ H.len s → j < n →
    Ranked n (H.less s) → UpReady n (H.less s) j → Ordered n (H.less (H.up fuel s j))
  | fuel + 1, s, j, hfuel, hn, hj, hr, hready => by
      rw [up]
      split_ifs with hstop
      · refine hready.ordered fun hj0 => ?_
        rcases hstop with hself | hless
        · exact absurd (parent_eq_self.mp hself) hj0.ne'
        · exact hless
      · have hj0 : 0 < j := Nat.pos_of_ne_zero fun h0 => hstop (.inl (parent_eq_self.mpr h0))
        have hlt : H.less s j (parent j) = true := by
          by_contra hf; exact hstop (.inr (Bool.eq_false_iff.mpr hf))
        have hp := parent_lt hj0
        have heq := law.less_eq_swapped (s := s) (hp.trans hj) hj hn
        exact law.up_ordered (hp.trans_le (Nat.lt_succ_iff.mp hfuel))
          (by rw [law.len_swap]; exact hn) (hp.trans hj)
          ((hr.swapped (hp.trans hj) hj).congr heq)
          ((hready.swapped hr hj0 hj hlt).congr (hp.trans hj) heq)

theorem child_least (hr : Ranked n (H.less s))
    (hk : 0 < k) (hkn : k < n) (hp : parent k = i) : H.less s k (H.child s i n) = false := by
  rcases eq_child hk hp with rfl | rfl
  · unfold child
    split_ifs with hright
    · exact hr.asymm hright.1 hkn hright.2
    · exact hr.irrefl hkn
  · unfold child
    split_ifs with hright
    · exact hr.irrefl hkn
    · by_contra hless
      exact hright ⟨hkn, (Bool.not_eq_false _).mp hless⟩

theorem stop_children (hr : Ranked n (H.less s)) (hi : i < n)
    (hstop : n ≤ 2 * i + 1 ∨ H.less s (H.child s i n) i = false) (hk : 0 < k)
    (hkn : k < n) (hp : parent k = i) : H.less s k i = false := by
  by_cases hin : n ≤ 2 * i + 1
  · rcases eq_child hk hp with rfl | rfl <;> omega
  · rcases hstop with hout | hless
    · exact absurd hout hin
    · exact hr.trans hkn (child_lt hin) hi (child_least hr hk hkn hp) hless

theorem down_ordered (law : H.Lawful) : ∀ {fuel s i}, n - i < fuel → n ≤ H.len s → i < n →
    Ranked n (H.less s) → DownReady n (H.less s) i →
    Ordered n (H.less (H.down fuel s i n).1)
  | fuel + 1, s, i, hfuel, hn, hi, hr, hready => by
      rw [down]
      split_ifs with hstop
      · intro k hk hkn
        by_cases hp : parent k = i
        · rw [hp]; exact stop_children hr hi hstop hk hkn hp
        · exact hready.others hk hkn hp
      · rw [not_or, Bool.not_eq_false] at hstop
        obtain ⟨hin, hlt⟩ := hstop
        have hc := child_lt (H := H) (s := s) hin
        have hgt := child_gt (H := H) (s := s) i n
        have heq := law.less_eq_swapped (s := s) hi hc hn
        exact law.down_ordered (by omega) (by rw [law.len_swap]; exact hn) hc
          ((hr.swapped hi hc).congr heq)
          ((DownReady.swapped hr (hgt.trans_le' (Nat.zero_le i)) hc (parent_child i n) hlt
            (child_least hr) (fun hk hkn hp _ => hready.others hk hkn hp)
            hready.grand).congr hc heq)

/-- The repair at `i` after the item there was exchanged: `down`, and `up`
if it did not move. -/
theorem repair_ordered (law : H.Lawful) (fuel : Nat) (hfuel : n - i < fuel) (hn : n ≤ H.len s)
    (hi : i < n) (hr : Ranked n (H.less s))
    (hothers : ∀ {k}, 0 < k → k < n → parent k ≠ i → k ≠ i → H.less s k (parent k) = false)
    (hgrand : ∀ {k}, 0 < k → k < n → parent k = i → 0 < i → H.less s k (parent i) = false) :
    Ordered n (H.less (if i < (H.down fuel s i n).2 then (H.down fuel s i n).1
      else H.up (i + 1) (H.down fuel s i n).1 i)) := by
  obtain ⟨fuel, rfl⟩ : ∃ f, fuel = f + 1 := ⟨fuel - 1, by omega⟩
  rw [down]
  split_ifs with hstop hmoved hmoved
  · exact absurd hmoved (lt_irrefl i)
  · refine law.up_ordered (Nat.lt_succ_self i) hn hi hr ⟨fun {k} hk hkn hki => ?_, hgrand⟩
    by_cases hp : parent k = i
    · rw [hp]; exact stop_children hr hi hstop hk hkn hp
    · exact hothers hk hkn hp hki
  · rw [not_or, Bool.not_eq_false] at hstop
    obtain ⟨hin, hlt⟩ := hstop
    have hc := child_lt (H := H) (s := s) hin
    have hgt := child_gt (H := H) (s := s) i n
    have heq := law.less_eq_swapped (s := s) hi hc hn
    exact law.down_ordered (by omega) (by rw [law.len_swap]; exact hn) hc
      ((hr.swapped hi hc).congr heq)
      ((DownReady.swapped hr (hgt.trans_le' (Nat.zero_le i)) hc (parent_child i n) hlt
        (child_least hr) hothers hgrand).congr hc heq)
  · exact absurd ((child_gt i n).trans_le down_ge) hmoved

/-! ## The operations -/

theorem len_down (law : H.Lawful) (fuel i m : Nat) : H.len (H.down fuel s i m).1 = H.len s :=
  down_preserves (P := fun t => H.len t = H.len s)
    (fun _ _ h => (law.len_swap _ _ _).trans h) le_rfl rfl

theorem len_up (law : H.Lawful) (fuel j : Nat) : H.len (H.up fuel s j) = H.len s :=
  up_preserves (P := fun t => H.len t = H.len s)
    (fun _ _ h => (law.len_swap _ _ _).trans h) (Nat.lt_succ_self j) rfl

theorem len_extract (law : H.Lawful) (hi : i < H.len s) : H.len (H.extract s i) = H.len s :=
  extract_preserves (P := fun t => H.len t = H.len s)
    (fun _ _ h => (law.len_swap _ _ _).trans h) hi (fun _ => rfl) fun _ => law.len_swap _ _ _

theorem isHeap_pop (law : H.Lawful) (h : Ordered (H.len s - 1) (H.less s)) :
    H.IsHeap (H.pop s).2 := by
  rw [IsHeap, law.len_pop]
  exact h.congr fun a ha b hb => law.less_pop ha hb

theorem isHeap_heapPush (law : H.Lawful) {x : α} (h : H.IsHeap s)
    (hr : Ranked (H.len s + 1) (H.less (H.push s x))) : H.IsHeap (H.heapPush s x) := by
  rw [IsHeap, heapPush, law.len_up, law.len_push]
  refine law.up_ordered (Nat.lt_succ_self _) (law.len_push s x).ge (Nat.lt_succ_self _) hr
    ⟨fun {k} hk hkn hkj => ?_, fun {c} hc hcn hcj _ => ?_⟩
  · have hks : k < H.len s := by omega
    rw [law.less_push hks ((parent_lt hk).trans hks)]
    exact h k hk hks
  · have := parent_lt hc
    omega

theorem exchange_others (h : Ordered (n + 1) L) (hk : 0 < k) (hkn : k < n) (hp : parent k ≠ i)
    (hki : k ≠ i) : swapped L i n k (parent k) = false := by
  have hpn := (parent_lt hk).trans hkn
  rw [swapped, Equiv.swap_apply_of_ne_of_ne hki hkn.ne, Equiv.swap_apply_of_ne_of_ne hp hpn.ne]
  exact h k hk (hkn.trans (Nat.lt_succ_self n))

theorem exchange_grand (h : Ordered (n + 1) L) (hr : Ranked (n + 1) L) (hi : i < n) (hk : 0 < k)
    (hkn : k < n) (hp : parent k = i) (hi0 : 0 < i) : swapped L i n k (parent i) = false := by
  have hik : i < k := hp ▸ parent_lt hk
  have hpi := parent_lt hi0
  rw [swapped, Equiv.swap_apply_of_ne_of_ne hik.ne' hkn.ne,
    Equiv.swap_apply_of_ne_of_ne hpi.ne (hpi.trans hi).ne]
  have hki : L k i = false := hp ▸ h k hk (hkn.trans (Nat.lt_succ_self n))
  exact hr.trans (by omega) (by omega) (by omega) hki (h i hi0 (by omega))

theorem isHeap_heapPop (law : H.Lawful) (h : H.IsHeap s) (hpos : 0 < H.len s)
    (hr : Ranked (H.len s) (H.less s)) : H.IsHeap (H.heapPop s).2 := by
  obtain ⟨n, hn⟩ : ∃ n, H.len s = n + 1 := ⟨H.len s - 1, by omega⟩
  rw [IsHeap, hn] at h
  rw [hn] at hr
  have hswap : n ≤ H.len (H.swap s 0 n) := by rw [law.len_swap, hn]; exact Nat.le_succ n
  rw [heapPop, hn, Nat.add_sub_cancel]
  apply law.isHeap_pop
  rw [law.len_down, law.len_swap, hn, Nat.add_sub_cancel]
  rcases Nat.eq_zero_or_pos n with rfl | hpos
  · intro k _ hk
    exact absurd hk (Nat.not_lt_zero k)
  · have heq := law.less_eq_swapped (s := s) (i := 0) (hpos.trans (Nat.lt_succ_self n))
      (Nat.lt_succ_self n) hn.ge
    have heq' : ∀ a < n, ∀ b < n, H.less (H.swap s 0 n) a b = swapped (H.less s) 0 n a b :=
      fun a ha b hb => heq a (by omega) b (by omega)
    refine law.down_ordered (by omega) hswap hpos
      (((hr.swapped (by omega) (by omega)).mono (Nat.le_succ n)).congr heq')
      (DownReady.congr ⟨fun {k} hk hkn hp => ?_, fun _ _ _ h0 => absurd h0 (lt_irrefl 0)⟩ hpos heq')
    exact exchange_others h hk hkn hp hk.ne'

theorem isHeap_heapRemove (law : H.Lawful) (h : H.IsHeap s) (hi : i < H.len s)
    (hr : Ranked (H.len s) (H.less s)) : H.IsHeap (H.heapRemove s i).2 := by
  rw [heapRemove]
  apply law.isHeap_pop
  rw [law.len_extract hi]
  obtain ⟨n, hn⟩ : ∃ n, H.len s = n + 1 := ⟨H.len s - 1, by omega⟩
  rw [IsHeap, hn] at h
  rw [hn] at hr hi
  rw [extract]
  dsimp only
  rw [hn, Nat.add_sub_cancel]
  split_ifs with hlast hmoved
  · exact h.mono (Nat.le_succ n)
  all_goals
    have hin : i < n := by omega
    have heq := law.less_eq_swapped (s := s) hi (Nat.lt_succ_self n) hn.ge
    have heq' : ∀ a < n, ∀ b < n, H.less (H.swap s i n) a b = swapped (H.less s) i n a b :=
      fun a ha b hb => heq a (by omega) b (by omega)
    have hrepair := law.repair_ordered (s := H.swap s i n) (n + 1) (by omega)
      (by rw [law.len_swap, hn]; exact Nat.le_succ n) hin
      (((hr.swapped hi (Nat.lt_succ_self n)).mono (Nat.le_succ n)).congr heq')
      (fun {k} hk hkn hp hki => by
        rw [heq' k hkn _ ((parent_lt hk).trans hkn)]
        exact exchange_others h hk hkn hp hki)
      (fun {k} hk hkn hp hi0 => by
        rw [heq' k hkn _ ((parent_lt hi0).trans hin)]
        exact exchange_grand h hr hin hk hkn hp hi0)
    simpa only [hmoved, if_true, if_false] using hrepair

end Lawful

/-! ## Maps between implementations -/

/-- A map that the operations of two implementations agree on. -/
structure Hom {σ τ α : Type} (H : HeapInterface σ α) (K : HeapInterface τ α) (f : σ → τ) : Prop
    where
  len : ∀ s, K.len (f s) = H.len s
  less : ∀ s i j, K.less (f s) i j = H.less s i j
  swap : ∀ s i j, f (H.swap s i j) = K.swap (f s) i j
  push : ∀ s x, f (H.push s x) = K.push (f s) x
  pop : ∀ s, f (H.pop s).2 = (K.pop (f s)).2

namespace Hom
variable {σ τ α : Type} {H : HeapInterface σ α} {K : HeapInterface τ α} {f : σ → τ}

theorem up (hf : Hom H K f) : ∀ {fuel s j}, f (H.up fuel s j) = K.up fuel (f s) j
  | 0, _, _ => rfl
  | fuel + 1, s, j => by
      rw [HeapInterface.up, HeapInterface.up, hf.less]
      split_ifs
      · rfl
      · rw [hf.up, hf.swap]

theorem child (hf : Hom H K f) (s : σ) (i n : Nat) : K.child (f s) i n = H.child s i n := by
  rw [HeapInterface.child, HeapInterface.child, hf.less]

theorem down (hf : Hom H K f) : ∀ {fuel s i n},
    K.down fuel (f s) i n = (f (H.down fuel s i n).1, (H.down fuel s i n).2)
  | 0, _, _, _ => rfl
  | fuel + 1, s, i, n => by
      rw [HeapInterface.down, HeapInterface.down, hf.child, hf.less]
      split_ifs
      · rfl
      · rw [← hf.swap, hf.down]

theorem heapPush (hf : Hom H K f) (s : σ) (x : α) : f (H.heapPush s x) = K.heapPush (f s) x := by
  rw [HeapInterface.heapPush, HeapInterface.heapPush, hf.up, hf.push, hf.len]

theorem extract (hf : Hom H K f) (s : σ) (i : Nat) : f (H.extract s i) = K.extract (f s) i := by
  simp only [HeapInterface.extract, hf.len, ← hf.swap, hf.down, ← hf.up]
  split_ifs <;> rfl

theorem heapRemove (hf : Hom H K f) (s : σ) (i : Nat) :
    f (H.heapRemove s i).2 = (K.heapRemove (f s) i).2 := by
  rw [HeapInterface.heapRemove, HeapInterface.heapRemove, hf.pop, hf.extract]

theorem isHeap (hf : Hom H K f) {s : σ} : H.IsHeap s ↔ K.IsHeap (f s) := by
  simp only [IsHeap, Ordered, hf.len, hf.less]

end Hom

end HeapInterface

end Qau
