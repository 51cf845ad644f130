import Qau.Qpos

/-!
# Re-anchoring the canonical roots after a reorg

`reanchorSlotRoots` of `consensus/qpos_forkchoice.go`: a reorg replaces the
slot roots of the abandoned range and re-derives the epoch roots of every
epoch whose boundary lies in it. `reanchorSlotRoots_eq_true` says what an
accepted request leaves, and the `getElem?` lemmas before it say so entry by
entry. The caches of shuffles and committees that a reorg empties are not
modelled.
-/

namespace Qau.Consensus

open Std.ExtTreeMap

/-! ## The request -/

structure ReanchorBounds where
  ancestorSlot : Slot
  ancestorKnown : Bool
  replacedHeadSlot : Slot
  ancestorHash : Hash
  epochRoots : Fmap Epoch Hash

/-- `ReanchorCleanRange`: the first and the last slot of the abandoned
range, if the bounds describe one. -/
def reanchorCleanRange (roots : Fmap Slot Hash) (bounds : ReanchorBounds) : Option (Slot × Slot) :=
  match roots.minKey?, roots.maxKey? with
  | some minSlot, some maxSlot =>
    some (if bounds.ancestorKnown ∧ bounds.ancestorSlot + 1 < minSlot then bounds.ancestorSlot + 1
        else minSlot,
      if bounds.replacedHeadSlot > maxSlot then bounds.replacedHeadSlot else maxSlot)
  | _, _ =>
    if bounds.ancestorKnown ∧ bounds.replacedHeadSlot > bounds.ancestorSlot then
      some (bounds.ancestorSlot + 1, bounds.replacedHeadSlot)
    else none

def reanchorConflictsWithFinality (roots : Fmap Slot Hash) (bounds : ReanchorBounds)
    (finalSlot : Slot) : Bool :=
  match reanchorCleanRange roots bounds with
  | some (first, _) => first ≤ finalSlot
  | none => false

/-- The first epoch whose boundary slot the range reaches. -/
def firstReachedEpoch (cleanMin : Slot) : Epoch :=
  if cleanMin % slotsPerEpoch ≠ 0 then slotToEpoch cleanMin + 1 else slotToEpoch cleanMin

namespace QPOS

variable (q : QPOS) (roots vrfAccUpdates : Fmap Slot Hash) (bounds : ReanchorBounds)
  {e first : Epoch}

/-- Epochs whose roots a reorg never drops or rewrites. -/
def anchored (e : Epoch) : Bool := e = q.justifiedEpoch || e = q.finalizedEpoch

/-- Steps 1 and 2: the new roots, and nothing else inside the range. -/
def reanchoredSlots (cleanMin cleanMax : Slot) : Fmap Slot Hash :=
  (q.slotBlockRoots ∪ roots).filter fun s _ =>
    !(decide (cleanMin ≤ s) && decide (s ≤ cleanMax)) || roots.contains s

/-- The recorded epochs that step 3 drops. -/
def fallenEpochs (first : Epoch) : Fmap Epoch Hash :=
  q.epochBlockRoots.filter fun e _ => !q.anchored e && decide (first ≤ e)

/-- The checkpoints of the new chain that step 3 records. -/
def impliedEpochs (first : Epoch) : Fmap Epoch Hash :=
  bounds.epochRoots.filter fun e root => root ≠ zeroHash && decide (first ≤ e) && !q.anchored e

/-- The dropped epochs that fall back to the common ancestor. -/
def fallbackEpochs (first : Epoch) : Fmap Epoch Hash :=
  if bounds.ancestorKnown ∧ bounds.ancestorHash ≠ zeroHash then
    ((q.fallenEpochs first).filter fun e _ =>
      (bounds.epochRoots[e]?).getD zeroHash = zeroHash).map fun _ _ => bounds.ancestorHash
  else ∅

/-- Step 3. The three loops write different epochs, so their order over the
maps does not matter. -/
def reanchoredEpochs (first : Epoch) : Fmap Epoch Hash :=
  (q.epochBlockRoots.filter fun e _ => q.anchored e || !decide (first ≤ e))
    ∪ q.impliedEpochs bounds first ∪ q.fallbackEpochs bounds first

/-- `reanchorSlotRoots`: whether the reorg is accepted, and the state after. -/
def reanchorSlotRoots : Bool × QPOS :=
  match reanchorCleanRange roots bounds with
  | none => (true, q)
  | some (cleanMin, cleanMax) =>
    if (q.finalizedCheckpointSlot).any (reanchorConflictsWithFinality roots bounds) then (false, q)
    else
      (true, { q with
        slotBlockRoots := q.reanchoredSlots roots cleanMin cleanMax
        epochBlockRoots := q.reanchoredEpochs bounds (firstReachedEpoch cleanMin)
        epochVRFAccumulator := q.epochVRFAccumulator ∪ vrfAccUpdates })

/-! ## What an accepted request leaves -/

variable {q roots vrfAccUpdates bounds}

theorem anchored_eq_true : q.anchored e = true ↔ e = q.justifiedEpoch ∨ e = q.finalizedEpoch := by
  simp [anchored]

theorem getElem?_reanchoredSlots (cleanMin cleanMax s : Slot) :
    (q.reanchoredSlots roots cleanMin cleanMax)[s]? =
      (roots[s]?).or (if cleanMin ≤ s ∧ s ≤ cleanMax then none else q.slotBlockRoots[s]?) := by
  unfold reanchoredSlots
  rw [getElem?_filter', getElem?_union,
    contains_eq_isSome_getElem?]
  cases hr : roots[s]? with
  | some h => simp
  | none =>
    split_ifs with hin
    · simp [hin]
    · cases q.slotBlockRoots[s]? with
      | none => rfl
      | some h =>
        rcases not_and_or.mp hin with h | h
        · simp [h]
        · simp [h]

theorem getElem?_fallbackEpochs (first e : Epoch) : (q.fallbackEpochs bounds first)[e]? =
      if (bounds.ancestorKnown ∧ bounds.ancestorHash ≠ zeroHash) ∧ (q.epochBlockRoots[e]?).isSome ∧
          q.anchored e = false ∧ first ≤ e ∧ (bounds.epochRoots[e]?).getD zeroHash = zeroHash
      then some bounds.ancestorHash else none := by
  unfold fallbackEpochs fallenEpochs
  by_cases hb : bounds.ancestorKnown ∧ bounds.ancestorHash ≠ zeroHash
  · rw [if_pos hb, getElem?_map, getElem?_filter',
      getElem?_filter']
    cases q.epochBlockRoots[e]? with
    | none => simp
    | some h =>
      by_cases hf : q.anchored e = false ∧ first ≤ e
      · by_cases hz : (bounds.epochRoots[e]?).getD zeroHash = zeroHash
        · rw [if_pos ⟨hb, rfl, hf.1, hf.2, hz⟩]
          simp [Option.filter, hf, hz]
        · rw [if_neg fun h => hz h.2.2.2.2]
          simp [Option.filter, hf, hz]
      · rw [if_neg fun h => hf ⟨h.2.2.1, h.2.2.2.1⟩]
        simp [Option.filter, hf]
  · rw [if_neg hb, if_neg fun h => hb h.1]
    simp

theorem getElem?_reanchoredEpochs_of_kept (h : q.anchored e = true ∨ ¬ first ≤ e) :
    (q.reanchoredEpochs bounds first)[e]? = q.epochBlockRoots[e]? := by
  unfold reanchoredEpochs impliedEpochs
  rw [getElem?_union, getElem?_union, getElem?_fallbackEpochs,
    getElem?_filter', getElem?_filter', if_neg]
  · have himplied : Option.filter
        (fun root => root ≠ zeroHash && decide (first ≤ e) && !q.anchored e)
        bounds.epochRoots[e]? = none := by
      rw [Option.filter_eq_none_iff]
      rintro root - hroot
      simp only [Bool.and_eq_true, decide_eq_true_eq, Bool.not_eq_true'] at hroot
      rcases h with h | h
      · rw [h] at hroot
        exact absurd hroot.2 (by decide)
      · exact h hroot.1.2
    rw [himplied, Option.none_or, Option.none_or]
    cases q.epochBlockRoots[e]? with
    | none => rfl
    | some root =>
      refine Option.filter_eq_some_iff.mpr ⟨rfl, ?_⟩
      rcases h with h | h
      · simp [h]
      · simp [h]
  · rintro ⟨-, -, hanch, hfirst, -⟩
    rcases h with h | h
    · rw [h] at hanch
      cases hanch
    · exact h hfirst

theorem getElem?_reanchoredEpochs_of_reached (ha : q.anchored e = false) (hf : first ≤ e) :
    (q.reanchoredEpochs bounds first)[e]? =
      if (bounds.epochRoots[e]?).getD zeroHash ≠ zeroHash then bounds.epochRoots[e]?
      else if (bounds.ancestorKnown ∧ bounds.ancestorHash ≠ zeroHash) ∧ (q.epochBlockRoots[e]?).isSome
        then some bounds.ancestorHash else none := by
  unfold reanchoredEpochs impliedEpochs
  rw [getElem?_union, getElem?_union, getElem?_fallbackEpochs,
    getElem?_filter', getElem?_filter']
  have hkept : Option.filter (fun _ : Hash => q.anchored e || !decide (first ≤ e))
      q.epochBlockRoots[e]? = none := by
    rw [Option.filter_eq_none_iff]
    intro root _
    simp [ha, hf]
  rw [hkept, Option.or_none]
  cases hr : bounds.epochRoots[e]? with
  | none => simp [ha, hf]
  | some root =>
    by_cases hz : root = zeroHash
    · simp [ha, hf, hz, Option.filter]
    · simp [ha, hf, hz, Option.filter]

/-- A request that is not refused either has no range and changes nothing,
or writes the two maps as above. -/
theorem reanchorSlotRoots_eq_true (h : (q.reanchorSlotRoots roots vrfAccUpdates bounds).1 = true) :
    (reanchorCleanRange roots bounds = none ∧
        (q.reanchorSlotRoots roots vrfAccUpdates bounds).2 = q) ∨
      ∃ cleanMin cleanMax, reanchorCleanRange roots bounds = some (cleanMin, cleanMax) ∧
        (∀ finalSlot, q.finalizedCheckpointSlot = some finalSlot → finalSlot < cleanMin) ∧
        (q.reanchorSlotRoots roots vrfAccUpdates bounds).2 = { q with
          slotBlockRoots := q.reanchoredSlots roots cleanMin cleanMax
          epochBlockRoots := q.reanchoredEpochs bounds (firstReachedEpoch cleanMin)
          epochVRFAccumulator := q.epochVRFAccumulator ∪ vrfAccUpdates } := by
  unfold reanchorSlotRoots at h ⊢
  cases hr : reanchorCleanRange roots bounds with
  | none => exact .inl ⟨rfl, rfl⟩
  | some range =>
    obtain ⟨cleanMin, cleanMax⟩ := range
    rw [hr] at h
    split_ifs at h ⊢ with hc
    refine .inr ⟨cleanMin, cleanMax, rfl, ?_, rfl⟩
    intro finalSlot hfinal
    rw [hfinal] at hc
    unfold reanchorConflictsWithFinality at hc
    rw [hr] at hc
    simpa using hc

theorem reanchorSlotRoots_eq_false (h : (q.reanchorSlotRoots roots vrfAccUpdates bounds).1 = false)
    : (q.reanchorSlotRoots roots vrfAccUpdates bounds).2 = q := by
  unfold reanchorSlotRoots at h ⊢
  split at h
  · cases h
  · split_ifs at h ⊢
    rfl

end QPOS

/-! ## Frame and slots -/

section Frame

variable {q : QPOS} {roots vrfAccUpdates : Fmap Slot Hash} {bounds : ReanchorBounds}
  {cleanMin cleanMax : Slot}

/-- The range holds the new segment and reaches down to the ancestor and up
to the replaced head. -/
theorem cleanRange_bounds (hr : reanchorCleanRange roots bounds = some (cleanMin, cleanMax)) :
    (∀ s ∈ roots, cleanMin ≤ s ∧ s ≤ cleanMax) ∧
      (bounds.ancestorKnown = true → ∀ s, bounds.ancestorSlot < s → cleanMin ≤ s) ∧
      bounds.replacedHeadSlot ≤ cleanMax := by
  unfold reanchorCleanRange at hr
  split at hr
  · next minSlot maxSlot hmin hmax =>
    obtain ⟨-, hleast⟩ := minKey?_eq_some_iff_mem_and_forall.mp hmin
    obtain ⟨-, hmost⟩ := maxKey?_eq_some_iff_mem_and_forall.mp hmax
    obtain ⟨rfl, rfl⟩ : _ ∧ _ := by simpa using hr
    refine ⟨fun s hs => ⟨?_, ?_⟩, fun hk s hs => ?_, ?_⟩
    · have hle := Std.isLE_compare.mp (hleast s hs)
      split_ifs with h
      · exact UInt64.le_trans (UInt64.le_of_lt h.2) hle
      · exact hle
    · have hle := Std.isLE_compare.mp (hmost s hs)
      split_ifs with h
      · exact UInt64.le_trans hle (UInt64.le_of_lt h)
      · exact hle
    · have hsucc : bounds.ancestorSlot + 1 ≤ s := by
        rw [UInt64.le_iff_toNat_le, toNat_add_one_of_lt hs]
        exact UInt64.lt_iff_toNat_lt.mp hs
      split_ifs with h
      · exact hsucc
      · exact UInt64.le_trans (UInt64.not_lt.mp fun hlt => h ⟨hk, hlt⟩) hsucc
    · split_ifs with h
      · exact UInt64.le_refl _
      · exact UInt64.not_lt.mp h
  · next hnone =>
    split_ifs at hr with h
    obtain ⟨rfl, rfl⟩ : _ ∧ _ := by simpa using hr
    refine ⟨fun s hs => ?_, fun _ s hs => ?_, UInt64.le_refl _⟩
    · have hmin := isSome_minKey?_of_mem hs
      have hmax := isSome_maxKey?_of_mem hs
      obtain ⟨a, ha⟩ := Option.isSome_iff_exists.mp hmin
      obtain ⟨b, hb⟩ := Option.isSome_iff_exists.mp hmax
      exact absurd hb (hnone a b ha)
    · rw [UInt64.le_iff_toNat_le, toNat_add_one_of_lt hs]
      exact UInt64.lt_iff_toNat_lt.mp hs

section
variable (hacc : (q.reanchorSlotRoots roots vrfAccUpdates bounds).1 = true)
include hacc

theorem slotRoots_kept {finalSlot s : Slot} (hfinal : q.finalizedCheckpointSlot = some finalSlot)
    (hs : s ≤ finalSlot) : (q.reanchorSlotRoots roots vrfAccUpdates bounds).2.slotBlockRoots[s]? =
      q.slotBlockRoots[s]? := by
  obtain ⟨-, heq⟩ | ⟨cleanMin, cleanMax, hr, hlow, heq⟩ := QPOS.reanchorSlotRoots_eq_true hacc
  · rw [heq]
  · have hlt : s < cleanMin := UInt64.lt_of_le_of_lt hs (hlow finalSlot hfinal)
    have hroots : roots[s]? = none := by
      rw [← Option.not_isSome_iff_eq_none, isSome_getElem?_iff_mem]
      exact fun hmem => UInt64.not_le.mpr hlt ((cleanRange_bounds hr).1 s hmem).1
    rw [heq]
    rw [QPOS.getElem?_reanchoredSlots, hroots, Option.none_or,
      if_neg fun h => UInt64.not_le.mpr hlt h.1]

theorem epochRoots_kept (he : e = q.justifiedEpoch ∨ e = q.finalizedEpoch) :
    (q.reanchorSlotRoots roots vrfAccUpdates bounds).2.epochBlockRoots[e]? =
      q.epochBlockRoots[e]? := by
  obtain ⟨-, heq⟩ | ⟨cleanMin, cleanMax, -, -, heq⟩ := QPOS.reanchorSlotRoots_eq_true hacc
  · rw [heq]
  · rw [heq]
    exact QPOS.getElem?_reanchoredEpochs_of_kept (.inl (QPOS.anchored_eq_true.mpr he))

/-- Above the ancestor only the new segment is left, when the range covers
every recorded slot there. -/
theorem slotRoots_above (hknown : bounds.ancestorKnown = true)
    (hcover : ∀ s ∈ q.slotBlockRoots, bounds.ancestorSlot < s →
      s ≤ bounds.replacedHeadSlot ∨ ∃ t ∈ roots, s ≤ t) {s : Slot} (hs : bounds.ancestorSlot < s) :
    (q.reanchorSlotRoots roots vrfAccUpdates bounds).2.slotBlockRoots[s]? = roots[s]? := by
  have hrecorded : ∀ h, q.slotBlockRoots[s]? = some h →
      s ≤ bounds.replacedHeadSlot ∨ ∃ t ∈ roots, s ≤ t := fun h hh =>
    hcover s (isSome_getElem?_iff_mem.mp (by rw [hh]; rfl)) hs
  obtain ⟨hr, heq⟩ | ⟨cleanMin, cleanMax, hr, -, heq⟩ := QPOS.reanchorSlotRoots_eq_true hacc
  · have hnone : ∀ t, t ∉ roots := by
      intro t ht
      obtain ⟨a, ha⟩ := Option.isSome_iff_exists.mp (isSome_minKey?_of_mem ht)
      obtain ⟨b, hb⟩ := Option.isSome_iff_exists.mp (isSome_maxKey?_of_mem ht)
      unfold reanchorCleanRange at hr
      rw [ha, hb] at hr
      cases hr
    have hhead : bounds.replacedHeadSlot ≤ bounds.ancestorSlot := by
      by_contra hlt
      unfold reanchorCleanRange at hr
      split at hr
      · cases hr
      · rw [if_pos ⟨hknown, UInt64.not_le.mp hlt⟩] at hr
        cases hr
    rw [heq, getElem?_eq_none (hnone s)]
    cases hrec : q.slotBlockRoots[s]? with
    | none => rfl
    | some h =>
      rcases hrecorded h hrec with hle | ⟨t, ht, -⟩
      · exact absurd (UInt64.le_trans hle hhead) (UInt64.not_le.mpr hs)
      · exact absurd ht (hnone t)
  · obtain ⟨hin, hlow, hhigh⟩ := cleanRange_bounds hr
    rw [heq]
    dsimp only
    rw [QPOS.getElem?_reanchoredSlots]
    cases roots[s]? with
    | some h => rfl
    | none =>
      rw [Option.none_or]
      split_ifs with hrange
      · rfl
      · cases hrec : q.slotBlockRoots[s]? with
        | none => rfl
        | some h =>
          refine absurd ⟨hlow hknown s hs, ?_⟩ hrange
          rcases hrecorded h hrec with hle | ⟨t, ht, hle⟩
          · exact UInt64.le_trans hle hhigh
          · exact UInt64.le_trans hle (hin t ht).2

end

end Frame

end Qau.Consensus
