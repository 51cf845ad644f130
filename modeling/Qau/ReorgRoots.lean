import Qau.QposReanchor

/-!
# The roots of the new chain

A chain is the finite map of its block hashes by slot. `Describes` is what
a caller promises about a re-anchoring request: it was read off the switch
from one chain to another, with the epoch roots that
`ReanchorBounds.EpochRoots` documents. The epoch root a chain implies for an
epoch is the hash of its highest block at or below the boundary slot
(`IsTip`). The code falls back to the common ancestor for an epoch the new
chain has no block in, and it keeps the root of the justified epoch. Both
are right exactly for the requests that `Settled` describes, as an import is
for those that are `Timely`. Nodes that reach one chain by such reorgs and
imports have the same roots where both record one.
-/

namespace Qau.Consensus

open Std.ExtTreeMap QPOS

variable {bound : Nat} {h : Hash}

/-! ## The roots a chain implies -/

/-- A chain as its block hashes by slot. -/
abbrev Chain := Fmap Slot Hash

variable {chain chain' : Chain}

/-- The boundary slot of an epoch, as a number: it does not wrap. -/
def boundarySlot (e : Epoch) : Nat := 32 * e.toNat

/-- `h` is the hash of the highest block of the chain at or below `bound`. -/
def IsTip (chain : Chain) (bound : Nat) (h : Hash) : Prop :=
  ∃ t : Slot, chain[t]? = some h ∧ t.toNat ≤ bound ∧ ∀ u : Slot, t < u → u.toNat ≤ bound → chain[u]? = none

theorem IsTip.unique {h' : Hash} (ht : IsTip chain bound h) (ht' : IsTip chain bound h') :
    h = h' := by
  obtain ⟨t, hc, hle, habove⟩ := ht
  obtain ⟨t', hc', hle', habove'⟩ := ht'
  have heq : t = t' := by
    rcases lt_trichotomy t.toNat t'.toNat with hlt | heq | hlt
    · rw [habove t' hlt hle'] at hc'
      cases hc'
    · exact UInt64.toNat_inj.mp heq
    · rw [habove' t hlt hle] at hc
      cases hc
  rw [heq, hc'] at hc
  exact (Option.some.inj hc).symm

/-- Chains that agree up to a bound have the same tip there. -/
theorem IsTip.congr (hagree : ∀ s : Slot, s.toNat ≤ bound → chain'[s]? = chain[s]?)
    (ht : IsTip chain bound h) : IsTip chain' bound h := by
  obtain ⟨t, hc, hle, habove⟩ := ht
  exact ⟨t, by rw [hagree t hle, hc], hle, fun u hu hub => by rw [hagree u hub, habove u hu hub]⟩

/-- The request was read off the switch from `old` to `new`. The epoch roots
are those `ReanchorBounds.EpochRoots` documents: one for every epoch with a
block of the new segment, and none for the others. -/
structure Describes (old new : Chain) (roots : Fmap Slot Hash) (bounds : ReanchorBounds) :
    Prop where
  known : bounds.ancestorKnown = true
  ancestor : new[bounds.ancestorSlot]? = some bounds.ancestorHash
  shared : ∀ s, s ≤ bounds.ancestorSlot → new[s]? = old[s]?
  diverged : ∀ (s t : Slot) (h : Hash), bounds.ancestorSlot < s → old[s]? = some h → new[t]? ≠ some h
  roots_eq : ∀ s, roots[s]? = if s ≤ bounds.ancestorSlot then none else new[s]?
  head : ∀ (s : Slot) (h : Hash), old[s]? = some h → s ≤ bounds.replacedHeadSlot
  epochRoots_isSome : ∀ e, bounds.ancestorSlot.toNat < boundarySlot e →
    ((bounds.epochRoots[e]?).isSome ↔
      ∃ s, bounds.ancestorSlot < s ∧ (new[s]?).isSome ∧ slotToEpoch s = e)
  epochRoots_tip : ∀ e h, bounds.ancestorSlot.toNat < boundarySlot e →
    bounds.epochRoots[e]? = some h → IsTip new (boundarySlot e) h
  nonzero : ∀ s : Slot, new[s]? ≠ some zeroHash
  injective : ∀ (s t : Slot) (h : Hash), new[s]? = some h → new[t]? = some h → s = t

/-- The recorded roots of the epochs that are not final are those of `chain`. -/
def EpochsFollow (q : QPOS) (chain : Chain) : Prop :=
  ∀ (e : Epoch) (h : Hash), e ≠ q.finalizedEpoch → q.epochBlockRoots[e]? = some h → IsTip chain (boundarySlot e) h

/-- The recorded slot roots are blocks of `chain`. -/
def SlotsFollow (q : QPOS) (chain : Chain) : Prop :=
  ∀ (s : Slot) (h : Hash), q.slotBlockRoots[s]? = some h → chain[s]? = some h

/-- Where the two rules of the code that do not look at the new chain give
its roots all the same: a recorded epoch that falls back to the ancestor has
no new block up to its boundary, and neither chain has a block between the
ancestor and the boundary of the justified epoch, whose root is kept. -/
structure Settled (q : QPOS) (old new : Chain) (bounds : ReanchorBounds) : Prop where
  fallback : ∀ e, (q.epochBlockRoots[e]?).isSome → q.anchored e = false →
    bounds.ancestorSlot.toNat < boundarySlot e →
    (∃ s, bounds.ancestorSlot < s ∧ (new[s]?).isSome ∧ slotToEpoch s = e) ∨
      ∀ s, bounds.ancestorSlot < s → s.toNat ≤ boundarySlot e → new[s]? = none
  justified : q.justifiedEpoch ≠ q.finalizedEpoch →
    (q.epochBlockRoots[q.justifiedEpoch]?).isSome →
    ∀ s, bounds.ancestorSlot < s → s.toNat ≤ boundarySlot q.justifiedEpoch →
      old[s]? = none ∧ new[s]? = none

theorem firstReachedEpoch_le_iff (cleanMin : Slot) (e : Epoch) :
    firstReachedEpoch cleanMin ≤ e ↔ cleanMin.toNat ≤ boundarySlot e := by
  have hdiv := toNat_slotToEpoch cleanMin
  have hmod : (cleanMin % slotsPerEpoch).toNat = cleanMin.toNat % 32 := UInt64.toNat_mod ..
  have hlt := cleanMin.toNat_lt
  unfold firstReachedEpoch boundarySlot
  split_ifs with h
  · have hne : cleanMin.toNat % 32 ≠ 0 := by
      intro h0
      exact h (UInt64.toNat_inj.mp h0)
    have hsucc : (slotToEpoch cleanMin + 1).toNat = cleanMin.toNat / 32 + 1 := by
      rw [toNat_add_one (by omega), hdiv]
    rw [UInt64.le_iff_toNat_le]
    omega
  · rw [not_not] at h
    rw [h] at hmod
    have h0 : cleanMin.toNat % 32 = 0 := hmod.symm
    rw [UInt64.le_iff_toNat_le]
    omega

section Switch

variable {q : QPOS} {old new : Chain} {roots vrfAccUpdates : Fmap Slot Hash}
  {bounds : ReanchorBounds}

theorem mem_roots_iff (hd : Describes old new roots bounds) (s : Slot) :
    s ∈ roots ↔ bounds.ancestorSlot < s ∧ (new[s]?).isSome := by
  rw [← isSome_getElem?_iff_mem, hd.roots_eq]
  split_ifs with h
  · simp [UInt64.not_lt.mpr h]
  · simp [UInt64.not_le.mp h]

/-- The range of a described request starts right above the ancestor. -/
theorem cleanRange_of_describes (hd : Describes old new roots bounds) {cleanMin cleanMax : Slot}
    (hr : reanchorCleanRange roots bounds = some (cleanMin, cleanMax)) :
    cleanMin.toNat = bounds.ancestorSlot.toNat + 1 ∧ bounds.replacedHeadSlot ≤ cleanMax := by
  unfold reanchorCleanRange at hr
  split at hr
  · next minSlot maxSlot hmin hmax =>
    obtain ⟨hmem, hleast⟩ := minKey?_eq_some_iff_mem_and_forall.mp hmin
    have hlt := ((mem_roots_iff hd minSlot).mp hmem).1
    have hsucc := toNat_add_one_of_lt hlt
    obtain ⟨rfl, rfl⟩ : _ ∧ _ := by simpa using hr
    constructor
    · split_ifs with h
      · exact hsucc
      · have hle : minSlot ≤ bounds.ancestorSlot + 1 := by simpa [hd.known] using h
        rw [UInt64.le_iff_toNat_le, hsucc] at hle
        rw [UInt64.lt_iff_toNat_lt] at hlt
        omega
    · split_ifs with h
      · exact UInt64.le_refl _
      · exact UInt64.not_lt.mp h
  · split_ifs at hr with h
    obtain ⟨rfl, rfl⟩ : _ ∧ _ := by simpa using hr
    exact ⟨toNat_add_one_of_lt h.2, UInt64.le_refl _⟩

theorem chains_eq_of_noRange (hd : Describes old new roots bounds)
    (hr : reanchorCleanRange roots bounds = none) (s : Slot) (hs : bounds.ancestorSlot < s) :
    old[s]? = none ∧ new[s]? = none := by
  unfold reanchorCleanRange at hr
  split at hr
  · cases hr
  · next hnone =>
    have hempty : roots = ∅ := by
      by_contra hne
      have hmin := isSome_minKey?_iff_ne_empty.mpr hne
      have hmax := isSome_maxKey?_iff_ne_empty.mpr hne
      obtain ⟨a, ha⟩ := Option.isSome_iff_exists.mp hmin
      obtain ⟨b, hb⟩ := Option.isSome_iff_exists.mp hmax
      exact hnone a b ha hb
    split_ifs at hr with h
    have hle : bounds.replacedHeadSlot ≤ bounds.ancestorSlot := by simpa [hd.known] using h
    constructor
    · cases ho : old[s]? with
      | none => rfl
      | some h =>
        exact absurd (hd.head s h ho)
          (UInt64.not_le.mpr (UInt64.lt_of_le_of_lt hle hs))
    · have := hd.roots_eq s
      rw [if_neg (UInt64.not_le.mpr hs), hempty] at this
      simpa using this.symm

theorem finality_reanchor :
    (q.reanchorSlotRoots roots vrfAccUpdates bounds).2.finality = q.finality := by
  unfold reanchorSlotRoots
  split
  · rfl
  · split_ifs <;> rfl

section
variable (hd : Describes old new roots bounds)
include hd

/-- A tip of the old chain that lies below the ancestor is one of the new. -/
theorem isTip_of_shared {e : Epoch} (he : boundarySlot e ≤ bounds.ancestorSlot.toNat)
    (ht : IsTip old (boundarySlot e) h) : IsTip new (boundarySlot e) h :=
  ht.congr fun _ hs => hd.shared _ (UInt64.le_iff_toNat_le.mpr (hs.trans he))

/-- The ancestor is the tip at a boundary above it exactly when no block of
the new chain lies in between. -/
theorem isTip_ancestor_iff (hb : bounds.ancestorSlot.toNat ≤ bound) :
    IsTip new bound bounds.ancestorHash ↔
      ∀ s, bounds.ancestorSlot < s → s.toNat ≤ bound → new[s]? = none := by
  constructor
  · rintro ⟨t, hc, -, habove⟩
    rw [hd.injective t _ _ hc hd.ancestor] at habove
    exact habove
  · exact fun h => ⟨_, hd.ancestor, hb, h⟩

/-- The kept root of an epoch above the ancestor is right exactly when
neither chain has a block in between: the branches share none. -/
theorem isTip_kept_iff (ht : IsTip old bound h) : IsTip new bound h ↔
      ∀ s, bounds.ancestorSlot < s → s.toNat ≤ bound → old[s]? = none ∧ new[s]? = none := by
  obtain ⟨t, hc, hle, habove⟩ := ht
  constructor
  · rintro ⟨t', hc', -, habove'⟩
    have htle : t ≤ bounds.ancestorSlot := by
      by_contra hlt
      exact hd.diverged t t' h (UInt64.not_le.mp hlt) hc hc'
    have heq : t' = t := hd.injective t' t h hc' (by rw [hd.shared t htle, hc])
    intro s hs hsb
    have hts : t < s := UInt64.lt_of_le_of_lt htle hs
    exact ⟨habove s hts hsb, habove' s (heq ▸ hts) hsb⟩
  · intro hnone
    have htle : t ≤ bounds.ancestorSlot := by
      by_contra hlt
      rw [(hnone t (UInt64.not_le.mp hlt) hle).1] at hc
      cases hc
    refine ⟨t, by rw [hd.shared t htle, hc], hle, fun u hu hub => ?_⟩
    by_cases hua : u ≤ bounds.ancestorSlot
    · rw [hd.shared u hua, habove u hu hub]
    · exact (hnone u (UInt64.not_le.mp hua) hub).2

theorem isTip_of_noRange (hr : reanchorCleanRange roots bounds = none) (ht : IsTip old bound h) :
    IsTip new bound h := by
  refine ht.congr fun s _ => ?_
  by_cases hs : s ≤ bounds.ancestorSlot
  · exact hd.shared s hs
  · obtain ⟨ho, hn⟩ := chains_eq_of_noRange hd hr s (UInt64.not_le.mp hs)
    rw [ho, hn]

theorem settled_of_noRange
    (hr : reanchorCleanRange roots bounds = none) : Settled q old new bounds where
  fallback _ _ _ _ := .inr fun s hs _ => (chains_eq_of_noRange hd hr s hs).2
  justified _ _ s hs _ := chains_eq_of_noRange hd hr s hs

/-- The epoch roots after a described reorg are those of the new chain
exactly when the request is settled. -/
theorem epochsFollow_reanchor_iff (hq : EpochsFollow q old)
    (hacc : (q.reanchorSlotRoots roots vrfAccUpdates bounds).1 = true) :
    EpochsFollow (q.reanchorSlotRoots roots vrfAccUpdates bounds).2 new ↔
      Settled q old new bounds := by
  have hzero : bounds.ancestorHash ≠ zeroHash := fun h => hd.nonzero _ (h ▸ hd.ancestor)
  obtain ⟨hr, heq⟩ | ⟨cleanMin, cleanMax, hr, -, heq⟩ := reanchorSlotRoots_eq_true hacc
  · refine iff_of_true ?_ (settled_of_noRange hd hr)
    rw [heq]
    exact fun e h hne he => isTip_of_noRange hd hr (hq e h hne he)
  have hmin := (cleanRange_of_describes hd hr).1
  have hreach : ∀ e, firstReachedEpoch cleanMin ≤ e ↔
      bounds.ancestorSlot.toNat < boundarySlot e := by
    intro e
    rw [firstReachedEpoch_le_iff, hmin, Nat.succ_le_iff]
  rw [heq]
  constructor
  · intro hafter
    constructor
    · intro e hsome hanch he
      by_cases hblock : ∃ s, bounds.ancestorSlot < s ∧ (new[s]?).isSome ∧ slotToEpoch s = e
      · exact .inl hblock
      · -- no new block in the epoch: the code has written the ancestor's hash
        have hnone : bounds.epochRoots[e]? = none := by
          rw [← Option.not_isSome_iff_eq_none]
          exact fun h => hblock ((hd.epochRoots_isSome e he).mp h)
        have hfin : e ≠ q.finalizedEpoch := by
          intro h
          rw [anchored_eq_true.mpr (.inr h)] at hanch
          cases hanch
        have hroot : (q.reanchoredEpochs bounds (firstReachedEpoch cleanMin))[e]? =
            some bounds.ancestorHash := by
          rw [getElem?_reanchoredEpochs_of_reached hanch ((hreach e).mpr he), hnone,
            if_neg (by simp), if_pos ⟨⟨hd.known, hzero⟩, hsome⟩]
        exact .inr ((isTip_ancestor_iff hd he.le).mp (hafter e _ hfin hroot))
    · intro hne hsome s hs hsb
      obtain ⟨h, hh⟩ := Option.isSome_iff_exists.mp hsome
      have hkept : (q.reanchoredEpochs bounds (firstReachedEpoch cleanMin))[q.justifiedEpoch]? =
          q.epochBlockRoots[q.justifiedEpoch]? :=
        getElem?_reanchoredEpochs_of_kept (.inl (anchored_eq_true.mpr (.inl rfl)))
      exact (isTip_kept_iff hd (hq _ h hne hh)).mp (hafter _ h hne (hkept.trans hh)) s hs hsb
  · intro hset e h hfin he
    by_cases hlow : boundarySlot e ≤ bounds.ancestorSlot.toNat
    · rw [getElem?_reanchoredEpochs_of_kept (.inr fun hf =>
        absurd ((hreach e).mp hf) (not_lt.mpr hlow))] at he
      exact isTip_of_shared hd hlow (hq e h hfin he)
    rw [not_le] at hlow
    by_cases hj : e = q.justifiedEpoch
    · rw [getElem?_reanchoredEpochs_of_kept (.inl (anchored_eq_true.mpr (.inl hj)))] at he
      refine (isTip_kept_iff hd (hq e h hfin he)).mpr ?_
      rw [hj] at hfin he ⊢
      exact hset.justified hfin (by rw [he]; rfl)
    · have hanch : q.anchored e = false := by
        rw [← Bool.not_eq_true, anchored_eq_true]
        exact fun h => h.elim hj hfin
      rw [getElem?_reanchoredEpochs_of_reached hanch ((hreach e).mpr hlow)] at he
      split_ifs at he with hz hsome
      · exact hd.epochRoots_tip e h hlow he
      · obtain rfl := Option.some.inj he
        refine (isTip_ancestor_iff hd hlow.le).mpr ?_
        refine (hset.fallback e hsome.2 hanch hlow).resolve_left ?_
        intro hblock
        obtain ⟨r, hr'⟩ := Option.isSome_iff_exists.mp ((hd.epochRoots_isSome e hlow).mpr hblock)
        obtain ⟨t, ht, -, -⟩ := hd.epochRoots_tip e r hlow hr'
        rw [hr', not_not] at hz
        exact hd.nonzero t (by rw [ht, ← hz]; rfl)

/-- The slot roots after a described reorg are blocks of the new chain. -/
theorem slotsFollow_reanchor (hq : SlotsFollow q old)
    (hacc : (q.reanchorSlotRoots roots vrfAccUpdates bounds).1 = true) :
    SlotsFollow (q.reanchorSlotRoots roots vrfAccUpdates bounds).2 new := by
  intro s h hs
  obtain ⟨hr, heq⟩ | ⟨cleanMin, cleanMax, hr, -, heq⟩ := reanchorSlotRoots_eq_true hacc
  · rw [heq] at hs
    by_cases hsa : s ≤ bounds.ancestorSlot
    · rw [hd.shared s hsa, hq s h hs]
    · have hold := (chains_eq_of_noRange hd hr s (UInt64.not_le.mp hsa)).1
      rw [hq s h hs] at hold
      cases hold
  · obtain ⟨hmin, hmax⟩ := cleanRange_of_describes hd hr
    rw [heq] at hs
    rw [getElem?_reanchoredSlots, hd.roots_eq] at hs
    by_cases hsa : s ≤ bounds.ancestorSlot
    · have hout : ¬ (cleanMin ≤ s ∧ s ≤ cleanMax) := by
        rintro ⟨h1, -⟩
        rw [UInt64.le_iff_toNat_le] at h1 hsa
        omega
      rw [if_pos hsa, if_neg hout] at hs
      rw [hd.shared s hsa, hq s h hs]
    · rw [if_neg hsa] at hs
      cases hn : new[s]? with
      | some h' =>
        rw [hn] at hs
        exact hs
      | none =>
        rw [hn, Option.none_or] at hs
        split_ifs at hs with hin
        -- a block of the old chain above the ancestor lies inside the range
        have hle := UInt64.le_trans (hd.head s h (hq s h hs)) hmax
        refine absurd ⟨?_, hle⟩ hin
        rw [UInt64.le_iff_toNat_le] at hsa ⊢
        omega

end

end Switch

/-! ## Imports -/

section Import

variable {env : Env} {q q₁ : QPOS} {slot p : Slot} {epoch e : Epoch} {root hash parent : Hash}
  {revealed : Bool}

theorem getElem?_pruneEpochRoots : (q.pruneEpochRoots epoch).epochBlockRoots[e]? =
      if q.epochBlockRoots.size > 10 ∧ e < q.epochPruneCutoff epoch then none
      else q.epochBlockRoots[e]? := by
  unfold pruneEpochRoots
  split_ifs with hsize h h
  · simp [h.2]
  · cases hroot : q.epochBlockRoots[e]? <;> simp_all [Option.filter]
  · exact absurd h.1 hsize
  · rfl

theorem setEpochBlockRoot_eq (hfix : q.finalizedRootFixed epoch root = false) :
    ∃ q' : QPOS, q.setEpochBlockRoot env epoch root = q'.pruneEpochRoots epoch ∧
      q'.epochBlockRoots = q.epochBlockRoots.insert epoch root ∧
      q'.slotBlockRoots = q.slotBlockRoots ∧ q'.finalizedEpoch = q.finalizedEpoch ∧
      q'.justifiedEpoch = q.justifiedEpoch := by
  unfold setEpochBlockRoot persistFinality
  rw [hfix]
  refine ⟨_, rfl, ?_⟩
  split_ifs <;> exact ⟨rfl, rfl, rfl, rfl⟩

theorem getElem?_setEpochBlockRoot (hfix : q.finalizedRootFixed epoch root = false) :
    (q.setEpochBlockRoot env epoch root).epochBlockRoots[e]? =
      if (q.epochBlockRoots.insert epoch root).size > 10 ∧ e < q.epochPruneCutoff epoch then none
      else if epoch = e then some root else q.epochBlockRoots[e]? := by
  obtain ⟨q', heq, hroots, -, hfin, hjust⟩ := setEpochBlockRoot_eq hfix
  rw [heq, getElem?_pruneEpochRoots, hroots, Fmap.getElem?_insert, epochPruneCutoff, hfin, hjust,
    epochPruneCutoff]

/-- The recording touches neither the slot roots nor the finalized epoch. -/
theorem setEpochBlockRoot_frame (env : Env) (q : QPOS) (epoch : Epoch) (root : Hash) :
    (q.setEpochBlockRoot env epoch root).slotBlockRoots = q.slotBlockRoots ∧
      (q.setEpochBlockRoot env epoch root).finalizedEpoch = q.finalizedEpoch := by
  cases hfix : q.finalizedRootFixed epoch root with
  | true => simp [setEpochBlockRoot, hfix]
  | false =>
    obtain ⟨q', heq, -, hslots, hfin, -⟩ := setEpochBlockRoot_eq hfix
    rw [heq, ← hslots, ← hfin]
    unfold pruneEpochRoots
    split_ifs <;> exact ⟨rfl, rfl⟩

section
variable (env root) (hepoch : q.finalizedEpoch ≤ epoch) (hfin : e ≠ q.finalizedEpoch)
include hepoch hfin

/-- Recording for an epoch that is not below the finalized one drops at most
roots of earlier epochs; what becomes of the finalized one is left open. -/
theorem setEpochBlockRoot_roots :
    (q.setEpochBlockRoot env epoch root).epochBlockRoots[e]? =
        (if epoch = e then some root else q.epochBlockRoots[e]?) ∨
      e < epoch ∧ (q.setEpochBlockRoot env epoch root).epochBlockRoots[e]? = none := by
  cases hfix : q.finalizedRootFixed epoch root with
  | true =>
    have heq : epoch = q.finalizedEpoch := by
      simp only [finalizedRootFixed, Bool.and_eq_true, decide_eq_true_eq] at hfix
      exact hfix.1.1.1
    rw [setEpochBlockRoot, if_pos hfix, if_neg (heq ▸ hfin.symm)]
    exact .inl rfl
  | false =>
    have hcut : q.epochPruneCutoff epoch ≤ epoch := by
      unfold epochPruneCutoff
      grind
    rw [getElem?_setEpochBlockRoot hfix]
    by_cases hpruned : (q.epochBlockRoots.insert epoch root).size > 10 ∧ e < q.epochPruneCutoff epoch
    · rw [if_pos hpruned]
      exact .inr ⟨UInt64.lt_of_lt_of_le hpruned.2 hcut, rfl⟩
    · rw [if_neg hpruned]
      exact .inl rfl

theorem ensureEpochBlockRoot_roots :
    (q.ensureEpochBlockRoot env epoch root).epochBlockRoots[e]? =
        (if epoch = e then some ((q.epochBlockRoots[e]?).getD root) else q.epochBlockRoots[e]?) ∨
      e < epoch ∧ (q.ensureEpochBlockRoot env epoch root).epochBlockRoots[e]? = none := by
  unfold ensureEpochBlockRoot
  split_ifs with hsome he he
  · subst he
    obtain ⟨h, hh⟩ := Option.isSome_iff_exists.mp hsome
    simp [hh]
  · exact .inl rfl
  · subst he
    have h := setEpochBlockRoot_roots env root hepoch hfin
    simp_all
  · have h := setEpochBlockRoot_roots env root hepoch hfin
    rwa [if_neg he] at h

end

/-- The epoch roots that the import of the head at `slot` records: its hash
at a boundary slot, and its parent's for an epoch without a root. A header
without a RANDAO reveal records none. -/
def recordEpochRoots (env : Env) (q : QPOS) (slot : Slot) (hash parent : Hash)
    (revealed : Bool) : QPOS :=
  if revealed then
    let q' := if slot % slotsPerEpoch = 0 then q.setEpochBlockRoot env (slotToEpoch slot) hash else q
    q'.ensureEpochBlockRoot env (slotToEpoch slot) parent
  else q

theorem recordEpochRoots_frame : (recordEpochRoots env q slot hash parent revealed).slotBlockRoots =
      q.slotBlockRoots ∧
    (recordEpochRoots env q slot hash parent revealed).finalizedEpoch = q.finalizedEpoch := by
  unfold recordEpochRoots ensureEpochBlockRoot
  cases revealed
  · exact ⟨rfl, rfl⟩
  · grind [setEpochBlockRoot_frame]

/-- The block at `slot` is the new head on top of `parent`, the block at `p`;
a re-anchoring may have entered it into the chain already. -/
structure Extends (chain : Chain) (p slot : Slot) (hash parent : Hash) : Prop where
  tip : chain[p]? = some parent
  below : p < slot
  between : ∀ t, p < t → t ≠ slot → chain[t]? = none
  free : chain[slot]? = none ∨ chain[slot]? = some hash
  fresh : ∀ t, chain[t]? = some hash → t = slot
  injective : ∀ t, chain[t]? = some parent → t = p

/-- Where an import keeps the epoch roots right: no root is recorded for a
later boundary, as a rollback leaves it, and an epoch without a root gets
its first block while the parent is still at or below the boundary. -/
structure Timely (q : QPOS) (chain : Chain) (p slot : Slot) (hash : Hash) (revealed : Bool) :
    Prop where
  ahead : ∀ e, (q.epochBlockRoots[e]?).isSome → e ≠ q.finalizedEpoch →
    slot.toNat ≤ boundarySlot e → chain[slot]? = some hash ∨ revealed ∧ e = slotToEpoch slot
  parent : revealed → q.epochBlockRoots[slotToEpoch slot]? = none →
    slotToEpoch slot ≠ q.finalizedEpoch → slot % slotsPerEpoch ≠ 0 →
    p.toNat ≤ boundarySlot (slotToEpoch slot)

/-- The epoch roots that an import leaves: the head's epoch has one, the
others keep theirs, and those of earlier epochs may be dropped. -/
theorem recordEpochRoots_roots (env : Env) (hash parent : Hash) (revealed : Bool)
    (hepoch : q.finalizedEpoch ≤ slotToEpoch slot) (hfin : e ≠ q.finalizedEpoch) :
    (recordEpochRoots env q slot hash parent revealed).epochBlockRoots[e]? =
        (if revealed ∧ slotToEpoch slot = e then
          some (if slot % slotsPerEpoch = 0 then hash else (q.epochBlockRoots[e]?).getD parent)
        else q.epochBlockRoots[e]?) ∨
      e < slotToEpoch slot ∧
        (recordEpochRoots env q slot hash parent revealed).epochBlockRoots[e]? = none := by
  cases revealed with
  | false => simp [recordEpochRoots]
  | true =>
    by_cases hslot : slot % slotsPerEpoch = 0
    · have hframe := (setEpochBlockRoot_frame env q (slotToEpoch slot) hash).2
      have hset := setEpochBlockRoot_roots env hash hepoch hfin
      have hensure := ensureEpochBlockRoot_roots env parent (hframe.symm ▸ hepoch)
        (hframe.symm ▸ hfin)
      simp only [recordEpochRoots, if_true, if_pos hslot, true_and]
      grind
    · have hensure := ensureEpochBlockRoot_roots env parent hepoch hfin
      simpa only [recordEpochRoots, if_true, if_neg hslot, true_and] using hensure

theorem IsTip.insert (ht : IsTip chain bound h)
    (hslot : bound < slot.toNat ∨ chain[slot]? = some hash) :
    IsTip (chain.insert slot hash) bound h := by
  refine ht.congr fun s hs => ?_
  rw [Fmap.getElem?_insert]
  split_ifs with heq
  · subst heq
    exact (hslot.resolve_left (not_lt.mpr hs)).symm
  · rfl

theorem toNat_eq_boundarySlot_add (slot : Slot) :
    slot.toNat = boundarySlot (slotToEpoch slot) + (slot % slotsPerEpoch).toNat := by
  rw [boundarySlot, toNat_slotToEpoch, UInt64.toNat_mod]
  exact (Nat.div_add_mod ..).symm

theorem boundarySlot_lt (hslot : slot % slotsPerEpoch ≠ 0) :
    boundarySlot (slotToEpoch slot) < slot.toNat := by
  have hne : (slot % slotsPerEpoch).toNat ≠ 0 := fun h0 => hslot (UInt64.toNat_inj.mp h0)
  have hdiv := toNat_eq_boundarySlot_add slot
  omega

section
variable (hx : Extends chain p slot hash parent)
include hx

theorem Extends.isTip_head (hb : slot.toNat ≤ bound) :
    IsTip (chain.insert slot hash) bound hash := by
  refine ⟨slot, Fmap.getElem?_insert_self .., hb, fun u hu _ => ?_⟩
  have hne := UInt64.ne_of_lt hu
  rw [Fmap.getElem?_insert_ne _ _ hne]
  exact hx.between u (UInt64.lt_trans hx.below hu) hne.symm

/-- Below the new head its parent is the tip from the parent's slot on. -/
theorem Extends.isTip_parent_iff (hb : bound < slot.toNat) :
    IsTip (chain.insert slot hash) bound parent ↔ p.toNat ≤ bound := by
  have hold (t : Slot) (ht : t.toNat ≤ bound) : (chain.insert slot hash)[t]? = chain[t]? :=
    Fmap.getElem?_insert_ne _ _ fun h => by subst h; omega
  constructor
  · rintro ⟨t, ht, hle, -⟩
    rw [hold t hle] at ht
    rwa [← hx.injective t ht]
  · intro hp
    refine ⟨p, by rw [hold p hp, hx.tip], hp, fun u hu hub => ?_⟩
    rw [hold u hub]
    exact hx.between u hu fun h => by subst h; omega

section
variable (hq : EpochsFollow q chain) (hepoch : q.finalizedEpoch ≤ slotToEpoch slot)
include hq hepoch

theorem timely_of_epochsFollow (hafter : EpochsFollow
      (recordEpochRoots env q slot hash parent revealed) (chain.insert slot hash)) :
    Timely q chain p slot hash revealed := by
  unfold EpochsFollow at hafter
  rw [recordEpochRoots_frame.2] at hafter
  constructor
  · intro e hsome hfin hle
    obtain ⟨r, hr⟩ := Option.isSome_iff_exists.mp hsome
    by_contra hcon
    rw [not_or] at hcon
    obtain hroot | ⟨hlt, -⟩ := recordEpochRoots_roots env hash parent revealed hepoch hfin
    · rw [if_neg fun h => hcon.2 ⟨h.1, h.2.symm⟩, hr] at hroot
      obtain ⟨t, ht, -, -⟩ := hq e r hfin hr
      rw [(hafter e r hfin hroot).unique (hx.isTip_head hle)] at ht
      exact hcon.1 (hx.fresh t ht ▸ ht)
    · have hdiv := toNat_eq_boundarySlot_add slot
      rw [UInt64.lt_iff_toNat_lt] at hlt
      unfold boundarySlot at hle hdiv
      omega
  · intro hrev hnone hfin hslot
    obtain hroot | ⟨hlt, -⟩ := recordEpochRoots_roots env hash parent revealed hepoch hfin
    · rw [if_pos ⟨hrev, rfl⟩, if_neg hslot, hnone] at hroot
      exact (hx.isTip_parent_iff (boundarySlot_lt hslot)).mp (hafter _ parent hfin hroot)
    · exact absurd hlt (UInt64.lt_irrefl _)

theorem epochsFollow_of_timely (htimely : Timely q chain p slot hash revealed) :
    EpochsFollow (recordEpochRoots env q slot hash parent revealed) (chain.insert slot hash) := by
  unfold EpochsFollow
  rw [recordEpochRoots_frame.2]
  intro e r hfin hr
  obtain hroot | ⟨-, hroot⟩ := recordEpochRoots_roots env hash parent revealed hepoch hfin
  · rw [hr] at hroot
    by_cases hhead : revealed = true ∧ slotToEpoch slot = e
    · obtain ⟨hrev, rfl⟩ := hhead
      rw [if_pos ⟨hrev, rfl⟩] at hroot
      obtain rfl := Option.some.inj hroot
      split_ifs with hslot
      · have hdiv := toNat_eq_boundarySlot_add slot
        rw [hslot] at hdiv
        exact hx.isTip_head hdiv.le
      · have hlater := boundarySlot_lt hslot
        cases hold : q.epochBlockRoots[slotToEpoch slot]? with
        | none => exact (hx.isTip_parent_iff hlater).mpr (htimely.parent hrev hold hfin hslot)
        | some r' => exact (hq _ r' hfin hold).insert (.inl hlater)
    · rw [if_neg hhead] at hroot
      refine (hq e r hfin hroot.symm).insert ?_
      by_cases hle : slot.toNat ≤ boundarySlot e
      · exact .inr ((htimely.ahead e (hroot ▸ rfl) hfin hle).resolve_right
          fun h => hhead ⟨h.1, h.2.symm⟩)
      · exact .inl (not_le.mp hle)
  · rw [hroot] at hr
    cases hr

end

end

theorem slotsFollow_import (hq : SlotsFollow q chain)
    (hslots : q₁.slotBlockRoots = (q.setSlotBlockRoot slot hash).slotBlockRoots) :
    SlotsFollow (recordEpochRoots env q₁ slot hash parent revealed) (chain.insert slot hash) := by
  intro s h hs
  rw [recordEpochRoots_frame.1, hslots] at hs
  have hroot : (q.slotBlockRoots.insert slot hash)[s]? = some h := by
    simp only [setSlotBlockRoot, apply_ite QPOS.slotBlockRoots] at hs
    split_ifs at hs
    · rw [getElem?_filter'] at hs
      exact (Option.filter_eq_some_iff.mp hs).1
    · exact hs
  rw [Fmap.getElem?_insert] at hroot ⊢
  split_ifs at hroot ⊢
  · exact hroot
  · exact hq s h hroot

end Import

/-! ## Path independence -/

/-- From `q` to `q'` the recorded epoch roots stay. Where the finalized epoch
moves on, the root of the one before is the chain's. -/
def KeepsEpochRoots (q : QPOS) (chain : Chain) (q' : QPOS) : Prop :=
  q'.epochBlockRoots = q.epochBlockRoots ∧ (q.finalizedEpoch ≠ q'.finalizedEpoch →
    ∀ h, q.epochBlockRoots[q.finalizedEpoch]? = some h → IsTip chain (boundarySlot q.finalizedEpoch) h)

/-- The life of a node on its canonical chain, from a start with no roots but
those of the genesis block. A quiet call, such as a vote, leaves the roots
alone. An import records the slot root of the new head, adopts the finality
of its header (`q₁` is the state after that) and records the epoch roots. -/
inductive RootHistory : QPOS → Chain → Prop where
  | start {q : QPOS} {chain : Chain} :
      (∀ (e : Epoch) (h : Hash), q.epochBlockRoots[e]? = some h → e = 0 ∧ chain[(0 : Slot)]? = some h) →
      (∀ (s : Slot) (h : Hash), q.slotBlockRoots[s]? = some h → s = 0 ∧ chain[(0 : Slot)]? = some h) →
      RootHistory q chain
  | quiet {q q' : QPOS} {chain : Chain} : RootHistory q chain → KeepsEpochRoots q chain q' →
      q'.slotBlockRoots = q.slotBlockRoots → RootHistory q' chain
  | imported {env : Env} {q q₁ : QPOS} {chain : Chain} {p slot : Slot} {hash parent : Hash}
      {revealed : Bool} : RootHistory q chain → Extends chain p slot hash parent →
      KeepsEpochRoots q chain q₁ →
      q₁.slotBlockRoots = (q.setSlotBlockRoot slot hash).slotBlockRoots →
      q₁.finalizedEpoch ≤ slotToEpoch slot → Timely q₁ chain p slot hash revealed →
      RootHistory (recordEpochRoots env q₁ slot hash parent revealed) (chain.insert slot hash)
  | reorg {q : QPOS} {old new : Chain} {roots vrfAccUpdates : Fmap Slot Hash}
      {bounds : ReanchorBounds} : RootHistory q old → Describes old new roots bounds →
      Settled q old new bounds → (q.reanchorSlotRoots roots vrfAccUpdates bounds).1 = true →
      RootHistory (q.reanchorSlotRoots roots vrfAccUpdates bounds).2 new

theorem KeepsEpochRoots.follows {q q' : QPOS} (hk : KeepsEpochRoots q chain q')
    (hq : EpochsFollow q chain) : EpochsFollow q' chain := by
  intro e h hfin he
  rw [hk.1] at he
  by_cases heq : e = q.finalizedEpoch
  · subst heq
    exact hk.2 hfin h he
  · exact hq e h heq he

theorem RootHistory.follows {q : QPOS} (h : RootHistory q chain) :
    EpochsFollow q chain ∧ SlotsFollow q chain := by
  induction h with
  | start he hs =>
    constructor
    · intro e h _ hh
      obtain ⟨rfl, hroot⟩ := he e h hh
      exact ⟨0, hroot, Nat.zero_le _, fun u hu hub => absurd hub (not_le.mpr hu)⟩
    · intro s h hh
      obtain ⟨rfl, hroot⟩ := hs s h hh
      exact hroot
  | quiet _ hk hslots ih => exact ⟨hk.follows ih.1, fun s h hh => ih.2 s h (hslots ▸ hh)⟩
  | imported _ hx hk hslots hepoch htimely ih =>
    exact ⟨epochsFollow_of_timely hx (hk.follows ih.1) hepoch htimely,
      slotsFollow_import ih.2 hslots⟩
  | reorg _ hd hset hacc ih =>
    exact ⟨(epochsFollow_reanchor_iff hd ih.1 hacc).mpr hset, slotsFollow_reanchor hd ih.2 hacc⟩

/-- Maps that agree where both have an entry are equal at a key exactly when
both or none has it. -/
theorem getElem?_eq_iff_mem {κ : Type} [Ord κ] [Std.TransOrd κ] {m₁ m₂ : Fmap κ Hash} {k : κ}
    (hagree : ∀ h₁ h₂, m₁[k]? = some h₁ → m₂[k]? = some h₂ → h₁ = h₂) :
    m₁[k]? = m₂[k]? ↔ (k ∈ m₁ ↔ k ∈ m₂) := by
  rw [← isSome_getElem?_iff_mem, ← isSome_getElem?_iff_mem]
  cases h₁ : m₁[k]? <;> cases h₂ : m₂[k]? <;> simp_all

/-- The recorded roots of two nodes on one chain are equal exactly where
both or none records one; the epochs final for one of them apart. -/
def RootsAgree (q₁ q₂ : QPOS) : Prop :=
  (∀ e, e ≠ q₁.finalizedEpoch → e ≠ q₂.finalizedEpoch →
    (q₁.epochBlockRoots[e]? = q₂.epochBlockRoots[e]? ↔
      (e ∈ q₁.epochBlockRoots ↔ e ∈ q₂.epochBlockRoots))) ∧
  (∀ s, q₁.slotBlockRoots[s]? = q₂.slotBlockRoots[s]? ↔
    (s ∈ q₁.slotBlockRoots ↔ s ∈ q₂.slotBlockRoots))

theorem roots_agree {q₁ q₂ : QPOS} (h₁ : RootHistory q₁ chain) (h₂ : RootHistory q₂ chain) :
    RootsAgree q₁ q₂ := by
  obtain ⟨he₁, hs₁⟩ := h₁.follows
  obtain ⟨he₂, hs₂⟩ := h₂.follows
  constructor
  · intro e hf₁ hf₂
    exact getElem?_eq_iff_mem fun r₁ r₂ h h' => (he₁ e r₁ hf₁ h).unique (he₂ e r₂ hf₂ h')
  · intro s
    refine getElem?_eq_iff_mem fun r₁ r₂ h h' => ?_
    have := hs₁ s r₁ h
    rw [hs₂ s r₂ h'] at this
    exact (Option.some.inj this).symm

section Sample

def sampleHash (s : Slot) : Hash := copyInto 32 [s.toUInt8]

def twoBlocks (a b : Slot) : Chain :=
  ((∅ : Chain).insert a (sampleHash a)).insert b (sampleHash b)

theorem getElem?_twoBlocks (a b s : Slot) : (twoBlocks a b)[s]? =
      if b = s then some (sampleHash b) else if a = s then some (sampleHash a) else none := by
  unfold twoBlocks
  rw [Fmap.getElem?_insert, Fmap.getElem?_insert]
  simp

def sampleRoots (n : Slot) : Fmap Slot Hash := (∅ : Fmap Slot Hash).insert n (sampleHash n)

def sampleBounds (n : Slot) : ReanchorBounds where
  ancestorSlot := 30
  ancestorKnown := true
  replacedHeadSlot := 64
  ancestorHash := sampleHash 30
  epochRoots := (∅ : Fmap Epoch Hash).insert (slotToEpoch n) (sampleHash 30)

/-- A node on the old chain with the checkpoint of epoch 2. -/
def sampleNode : QPOS :=
  { newQPOS [] 0 with
    slotBlockRoots := twoBlocks 30 64
    epochBlockRoots := (∅ : Fmap Epoch Hash).insert 2 (sampleHash 64) }

/-- The conditions under which block `n` can stand on the new chain. -/
structure SampleSlot (n : Slot) : Prop where
  above : 30 < n
  noBoundary : n.toNat % 32 ≠ 0
  ne_ancestor : sampleHash n ≠ sampleHash 30
  ne_old : sampleHash n ≠ sampleHash 64
  nonzero : sampleHash n ≠ zeroHash

theorem sample_describes {n : Slot} (hn : SampleSlot n) :
    Describes (twoBlocks 30 64) (twoBlocks 30 n) (sampleRoots n) (sampleBounds n) where
  known := rfl
  ancestor := by
    grind [getElem?_twoBlocks, sampleBounds, SampleSlot]
  shared s hs := by
    simp only [sampleBounds] at hs
    grind [getElem?_twoBlocks, SampleSlot]
  diverged s t h hs hold hnew := by
    have : sampleHash 30 ≠ sampleHash 64 := by decide
    simp only [sampleBounds] at hs
    grind [getElem?_twoBlocks, SampleSlot]
  roots_eq s := by
    simp only [sampleBounds, sampleRoots, Fmap.getElem?_insert, getElem?_twoBlocks]
    grind [SampleSlot]
  head s h hold := by
    simp only [sampleBounds]
    grind [getElem?_twoBlocks]
  epochRoots_isSome e _ := by
    simp only [sampleBounds, Fmap.getElem?_insert, getElem?_twoBlocks]
    grind [SampleSlot]
  epochRoots_tip e h hb hroot := by
    simp only [sampleBounds, Fmap.getElem?_insert] at hb hroot
    split_ifs at hroot with he
    · obtain rfl := Option.some.inj hroot
      have hepoch := toNat_slotToEpoch n
      refine ⟨30, ?_, hb.le, fun u hu hub => ?_⟩ <;>
        grind [getElem?_twoBlocks, SampleSlot, boundarySlot]
    · simp at hroot
  nonzero s := by
    have : sampleHash 30 ≠ zeroHash := by decide
    grind [getElem?_twoBlocks, SampleSlot]
  injective s t h hs ht := by
    grind [getElem?_twoBlocks, SampleSlot]

theorem sampleNode_follows : EpochsFollow sampleNode (twoBlocks 30 64) := by
  intro e h _ he
  have he : ((∅ : Fmap Epoch Hash).insert 2 (sampleHash 64))[e]? = some h := he
  rw [Fmap.getElem?_insert] at he
  split_ifs at he with h2
  · subst h2
    obtain rfl := Option.some.inj he
    refine ⟨64, ?_, by decide, fun u hu hub => ?_⟩
    · rw [getElem?_twoBlocks, if_pos rfl]
    · exact absurd (UInt64.lt_iff_toNat_lt.mp hu) (not_lt.mpr hub)
  · simp at he

/-- Nothing is final on this node, so every request is accepted. -/
theorem sampleNode_accepts (roots vrfAccUpdates : Fmap Slot Hash) (bounds : ReanchorBounds) :
    (sampleNode.reanchorSlotRoots roots vrfAccUpdates bounds).1 = true := by
  unfold reanchorSlotRoots
  split <;> rfl

theorem sampleSlot_70 : SampleSlot 70 := by
  constructor <;> decide

theorem sampleSlot_50 : SampleSlot 50 := by
  constructor <;> decide

end Sample

end Qau.Consensus
