import Qau.GhostWeight

/-!
# New blocks and pruning

A new block is a leaf without weight, and pruning at a root keeps the tree
below it with its weights. Both leave the descent of the blocks that stay as
it was.
-/

namespace Qau.Ghost

open Std.ExtTreeMap

open Function

open Forest

variable {s : Run} {fc fc' : ForkChoice} {d a h : Hash} {epoch : UInt64}
  {hash p root : Hash} {slot height : UInt64}

/-! ## Blocks -/

/-- The blocks with a new one below `p`. -/
def addBlock (blocks : Blocks) (hash p : Hash) (parent : BlockNode) (slot height : UInt64) : Blocks :=
  (blocks.insert p { parent with children := parent.children ++ [hash] }).insert hash
    ⟨p, slot, height, 0, []⟩

theorem onBlock_cases (h : fc.onBlock hash p slot height = .ok fc') :
    fc' = fc ∨ fc.blocks[hash]? = none ∧ ∃ parent, fc.blocks[p]? = some parent ∧
      parent.slot < slot ∧ fc' = { fc with blocks := addBlock fc.blocks hash p parent slot height } := by
  unfold ForkChoice.onBlock at h
  by_cases hknown : fc.blocks.contains hash = true
  · rw [if_pos hknown] at h
    exact .inl (Except.ok.inj h).symm
  rw [if_neg hknown] at h
  cases hp : fc.blocks[p]? with
  | none =>
    rw [hp] at h
    cases h
  | some parent =>
    rw [hp] at h
    dsimp only at h
    split_ifs at h with hslot
    exact .inr ⟨by simpa using hknown, parent, rfl, UInt64.not_le.mp hslot, (Except.ok.inj h).symm⟩

section AddBlock

variable {blocks : Blocks} {root hash p : Hash} {parent : BlockNode} {slot height : UInt64}

theorem hash_ne_parent (hnew : blocks[hash]? = none) (hp : blocks[p]? = some parent) : hash ≠ p := by
  rintro rfl
  rw [hnew] at hp
  cases hp

theorem links_addBlock (hp : blocks[p]? = some parent) : links (addBlock blocks hash p parent slot height) =
    update (links blocks) hash (some (p, slot)) := by
  funext b
  unfold links addBlock
  by_cases hb : hash = b
  · subst hb
    simp
  · rw [Fmap.getElem?_insert_ne _ _ hb, update_of_ne (Ne.symm hb), Fmap.getElem?_insert]
    split_ifs with hpb
    · subst hpb
      rw [hp]
      rfl
    · rfl

theorem parentOf_addBlock (hnew : blocks[hash]? = none) (hp : blocks[p]? = some parent)
    (horphan : ∀ (b : Hash) node, blocks[b]? = some node → node.parentHash ≠ hash) :
    parentOf (links (addBlock blocks hash p parent slot height)) =
      update (parentOf (links blocks)) hash (some p) := by
  have hne := hash_ne_parent hnew hp
  rw [links_addBlock hp]
  funext b
  by_cases hb : b = hash
  · subst hb
    simp [parentOf, update_of_ne hne.symm, links_of_some hp]
  · rw [update_of_ne hb, parentOf, parentOf, update_of_ne hb]
    cases hn : blocks[b]? with
    | none => simp [links_eq_none.mpr hn]
    | some node =>
      simp [links_of_some hn, update_of_ne (horphan b node hn)]

theorem slotOf_addBlock_ne (hp : blocks[p]? = some parent) {b : Hash} (hb : b ≠ hash) :
    slotOf (links (addBlock blocks hash p parent slot height)) b = slotOf (links blocks) b := by
  rw [links_addBlock hp, slotOf, slotOf, update_of_ne hb]

theorem slotOf_addBlock_self (hp : blocks[p]? = some parent) :
    slotOf (links (addBlock blocks hash p parent slot height)) hash = slot.toNat := by
  rw [links_addBlock hp, slotOf, update_self]
  rfl

section
variable (hnew : blocks[hash]? = none) (hp : blocks[p]? = some parent)
  (horphan : ∀ (b : Hash) node, blocks[b]? = some node → node.parentHash ≠ hash)
include hnew hp horphan

theorem parentOf_addBlock_ne (b : Hash) :
    parentOf (links (addBlock blocks hash p parent slot height)) b ≠ some hash := by
  rw [parentOf_addBlock hnew hp horphan]
  by_cases hb : b = hash
  · subst hb
    rw [update_self]
    exact fun h => hash_ne_parent hnew hp (Option.some.inj h).symm
  · rw [update_of_ne hb]
    intro h
    obtain ⟨_, -, hknown⟩ := parentOf_eq_some.mp h
    rw [links_eq_none.mpr hnew] at hknown
    cases hknown

theorem descends_addBlock (hd : d ≠ hash) :
    Descends (parentOf (links (addBlock blocks hash p parent slot height))) d a ↔
      Descends (parentOf (links blocks)) d a := by
  refine descends_of_leaf (fun x hx => ?_) (parentOf_addBlock_ne hnew hp horphan) hd
  rw [parentOf_addBlock hnew hp horphan, update_of_ne hx]

end

theorem Tree.addBlock (ht : Tree blocks root) (hnew : blocks[hash]? = none)
    (hp : blocks[p]? = some parent) (hslot : parent.slot < slot) (hzero : hash ≠ zeroArr 32)
    (horphan : ∀ (b : Hash) node, blocks[b]? = some node → node.parentHash ≠ hash) :
    Tree (addBlock blocks hash p parent slot height) root := by
  have hne := hash_ne_parent hnew hp
  have hknown : ∀ b, (links blocks b).isSome → b ≠ hash := by
    rintro b hb rfl
    rw [links_eq_none.mpr hnew] at hb
    cases hb
  have hself : parentOf (links blocks) hash = none := parentOf_eq_none hnew
  refine ⟨?_, ?_, ?_, ?_, ?_⟩
  · rw [← links_eq_none, links_addBlock hp, update_of_ne hzero.symm, links_eq_none, ht.zero]
  · rw [links_addBlock hp, update_of_ne (hknown root ht.known)]
    exact ht.known
  · intro c q hcq
    rw [parentOf_addBlock hnew hp horphan] at hcq
    by_cases hc : c = hash
    · subst hc
      rw [update_self] at hcq
      obtain rfl := Option.some.inj hcq
      rw [slotOf_addBlock_ne hp hne.symm, slotOf_addBlock_self hp, slotOf, links_of_some hp]
      exact UInt64.lt_iff_toNat_lt.mp hslot
    · rw [update_of_ne hc] at hcq
      obtain ⟨_, -, hq⟩ := parentOf_eq_some.mp hcq
      rw [slotOf_addBlock_ne hp hc, slotOf_addBlock_ne hp (hknown q hq)]
      exact ht.slots c q hcq
  · intro h node' hn c
    by_cases hh : hash = h
    · subst hh
      rw [Ghost.addBlock, Fmap.getElem?_insert_self] at hn
      obtain rfl := Option.some.inj hn
      simp only [List.not_mem_nil, false_iff]
      exact parentOf_addBlock_ne hnew hp horphan c
    rw [Ghost.addBlock, Fmap.getElem?_insert_ne _ _ hh, Fmap.getElem?_insert] at hn
    rw [parentOf_addBlock hnew hp horphan]
    by_cases hc : c = hash
    · subst hc
      rw [update_self, Option.some.injEq]
      split_ifs at hn with hph
      · obtain rfl := Option.some.inj hn
        simp [hph]
      · rw [ht.children h node' hn, hself]
        simp [hph]
    · rw [update_of_ne hc]
      split_ifs at hn with hph
      · subst hph
        obtain rfl := Option.some.inj hn
        simp [hc, ht.children p parent hp c]
      · exact ht.children h node' hn c
  · intro h hh
    have hrooted : ∀ b, (links blocks b).isSome →
        Descends (parentOf (links (Ghost.addBlock blocks hash p parent slot height))) b root :=
      fun b hb => (descends_addBlock hnew hp horphan (hknown b hb)).mpr (ht.rooted b hb)
    by_cases heq : h = hash
    · subst heq
      refine .up ?_ (hrooted p (by simp [links_of_some hp]))
      rw [parentOf_addBlock hnew hp horphan, update_self]
    · rw [links_addBlock hp, update_of_ne heq] at hh
      exact hrooted h hh

end AddBlock

/-- A new block, without votes, has no weight and changes no other. -/
theorem invariant_onBlock (hi : Invariant s) (hc : Careful s (.onBlock hash p slot height))
    (h : s.fc.onBlock hash p slot height = .ok fc') : Invariant ⟨fc', s.votes⟩ := by
  rcases onBlock_cases h with rfl | ⟨hnew, parent, hp, hslot, rfl⟩
  · exact hi
  obtain ⟨hzero, horphan', hunvoted'⟩ := hc (links_eq_none.mpr hnew)
  have horphan : ∀ (b : Hash) node, s.fc.blocks[b]? = some node → node.parentHash ≠ hash :=
    fun b node hn => horphan' (b, node) (mem_toList_iff_getElem?_eq_some.mpr hn)
  have hunvoted : ∀ i, ∀ v ∈ s.votes i, v.1 ≠ hash := by
    intro i v hv
    have hm : s.fc.latestMessages[i]? = some v.1 := by
      rw [hi.messages i, Option.mem_def.mp hv]
      rfl
    exact hunvoted' (i, v.1) (mem_toList_iff_getElem?_eq_some.mpr hm)
  have hlinks : ∀ b, b ≠ hash →
      links (addBlock s.fc.blocks hash p parent slot height) b = links s.fc.blocks b := by
    intro b hb
    rw [links_addBlock hp, update_of_ne hb]
  have hactive : ∀ i, ∀ v ∈ s.active i, v.1 ≠ hash := by
    intro i v hv
    unfold Run.active at hv
    split_ifs at hv
    · cases hv
    · exact hunvoted i v hv
  refine ⟨hi.tree.addBlock hnew hp hslot hzero horphan, hi.finalized, ?_, hi.messages, hi.positive,
    hi.range, ?_, ?_, hi.boost⟩
  · have hne : s.fc.justifiedRoot ≠ hash := by
      intro heq
      have := hi.justified
      rw [heq, links_eq_none.mpr hnew] at this
      cases this
    exact (hlinks _ hne).symm ▸ hi.justified
  · intro i hin v hv
    exact (hlinks _ (hunvoted i v hv)).trans (hi.idle i hin v hv)
  · intro b node' hn
    show _ = ghostWeight (links (addBlock s.fc.blocks hash p parent slot height)) s.active b
    by_cases hb : hash = b
    · subst hb
      simp only [addBlock, Fmap.getElem?_insert_self, Option.some.injEq] at hn
      subst hn
      refine (Finset.sum_eq_zero fun i _ => ?_).symm
      cases hv : s.active i with
      | none => rfl
      | some v =>
        refine share_of_not_descends (fun hd => ?_) _
        rcases descends_iff_child.mp hd with heq | ⟨c, hchild, -⟩
        · exact hactive i v hv heq
        · exact parentOf_addBlock_ne hnew hp horphan c hchild
    · have hweight : ∃ node, s.fc.blocks[b]? = some node ∧ node'.weight = node.weight := by
        simp only [addBlock, Fmap.getElem?_insert] at hn
        split_ifs at hn with hpb
        · subst hpb
          obtain rfl := Option.some.inj hn
          exact ⟨parent, hp, rfl⟩
        · exact ⟨node', hn, rfl⟩
      obtain ⟨node, hnode, hweight⟩ := hweight
      rw [hweight, hi.weights b node hnode]
      refine ghostWeight_congr fun i => ?_
      cases hv : s.active i with
      | none => rfl
      | some v =>
        obtain ⟨h, stake⟩ := v
        exact share_congr (descends_addBlock hnew hp horphan (hactive i (h, stake) hv)).symm stake

/-! ## Finality -/

theorem descends_of_reaches (fuel : Nat) (hr : fc.reaches root fuel h = true) :
    Descends (parentOf (links fc.blocks)) h root := by
  induction fuel generalizing h with
  | zero => cases hr
  | succ fuel ih =>
    unfold ForkChoice.reaches at hr
    rcases Bool.or_eq_true_iff.mp hr with heq | hup
    · exact of_decide_eq_true heq ▸ .refl _ _
    · cases hp : parentOf (links fc.blocks) h with
      | none =>
        rw [hp] at hup
        cases hup
      | some p =>
        rw [hp] at hup
        exact .up hp (ih hup)

section Prune

variable {blocks : Blocks} {root r : Hash} {keep : List Hash}
  (hkeep : ∀ d, d ∈ keep ↔ Descends (parentOf (links blocks)) d r)

include hkeep

theorem getElem?_prune {node : BlockNode} : (blocks.filter fun h _ => h ∈ keep)[h]? = some node ↔
      blocks[h]? = some node ∧ Descends (parentOf (links blocks)) h r := by
  rw [getElem?_filter', Option.filter_eq_some_iff, decide_eq_true_eq, hkeep]

theorem links_prune {e : Hash × UInt64} : links (blocks.filter fun h _ => h ∈ keep) h = some e ↔
      links blocks h = some e ∧ Descends (parentOf (links blocks)) h r := by
  simp only [links_eq_some, getElem?_prune hkeep]
  constructor
  · rintro ⟨node, ⟨hn, hd⟩, he⟩
    exact ⟨⟨node, hn, he⟩, hd⟩
  · rintro ⟨⟨node, hn, he⟩, hd⟩
    exact ⟨node, ⟨hn, hd⟩, he⟩

theorem links_prune_of_descends (hd : Descends (parentOf (links blocks)) h r) :
    links (blocks.filter fun h _ => h ∈ keep) h = links blocks h := by
  refine Option.ext fun e => ?_
  simp only [links_prune hkeep, hd, and_true]

theorem parentOf_prune {c q : Hash} :
    parentOf (links (blocks.filter fun h _ => h ∈ keep)) c = some q ↔
      parentOf (links blocks) c = some q ∧ Descends (parentOf (links blocks)) q r := by
  simp only [parentOf_eq_some, Option.isSome_iff_exists, links_prune hkeep]
  constructor
  · rintro ⟨slot, ⟨hc, -⟩, e, hq, hd⟩
    exact ⟨⟨slot, hc, e, hq⟩, hd⟩
  · rintro ⟨⟨slot, hc, e, hq⟩, hd⟩
    refine ⟨slot, ⟨hc, .up ?_ hd⟩, e, hq, hd⟩
    exact parentOf_eq_some.mpr ⟨slot, hc, by simp [hq]⟩

theorem descends_prune (ha : Descends (parentOf (links blocks)) a r) :
    Descends (parentOf (links (blocks.filter fun h _ => h ∈ keep))) d a ↔
      Descends (parentOf (links blocks)) d a := by
  refine descends_of_cut (fun x => Descends (parentOf (links blocks)) x r) ?_ ?_ ?_ ha
  · exact fun x y h => ((parentOf_prune hkeep).mp h).1
  · exact fun x y hy h => (parentOf_prune hkeep).mpr ⟨h, hy⟩
  · exact fun x y hy h => .up h hy

theorem Tree.prune (ht : Tree blocks root) (hr : (links blocks r).isSome) :
    Tree (blocks.filter fun h _ => h ∈ keep) r := by
  have hslot : ∀ h, Descends (parentOf (links blocks)) h r →
      slotOf (links (blocks.filter fun h _ => h ∈ keep)) h = slotOf (links blocks) h := by
    intro h hd
    rw [slotOf, links_prune_of_descends hkeep hd, slotOf]
  refine ⟨?_, ?_, ?_, ?_, ?_⟩
  · rw [Option.eq_none_iff_forall_ne_some]
    intro node hn
    rw [getElem?_prune hkeep, ht.zero] at hn
    cases hn.1
  · rw [links_prune_of_descends hkeep (.refl _ _)]
    exact hr
  · intro c q hcq
    obtain ⟨hparent, hd⟩ := (parentOf_prune hkeep).mp hcq
    rw [hslot q hd, hslot c (.up hparent hd)]
    exact ht.slots c q hparent
  · intro h node hn c
    obtain ⟨hn', hd⟩ := (getElem?_prune hkeep).mp hn
    rw [ht.children h node hn' c, parentOf_prune hkeep]
    exact ⟨fun hc => ⟨hc, hd⟩, fun hc => hc.1⟩
  · intro h hh
    obtain ⟨e, he⟩ := Option.isSome_iff_exists.mp hh
    rw [descends_prune hkeep (.refl _ _)]
    exact ((links_prune hkeep).mp he).2

end Prune

/-- Pruning at a known root from which the justified root descends. -/
theorem invariant_updateFinalized (hi : Invariant s) (hc : Careful s (.updateFinalized root epoch))
    : ∃ fc', s.fc.updateFinalized root epoch = some fc' ∧ Invariant ⟨fc', s.votes⟩ := by
  unfold ForkChoice.updateFinalized
  by_cases hepoch : s.fc.finalizedEpoch < epoch
  swap
  · exact ⟨s.fc, if_neg hepoch, hi⟩
  obtain ⟨hknown, hreach⟩ := hc hepoch
  have hjust := descends_of_reaches _ hreach
  have hcontains : s.fc.blocks.contains root = true := by
    simpa [links] using hknown
  rw [if_pos hepoch, if_pos hcontains]
  obtain ⟨keep, hmark, hkeep'⟩ := markDescendants_spec
    { s.fc with finalizedRoot := root, finalizedEpoch := epoch, root := root }
    hi.tree rounds [root] [] (by decide) (by simp [rounds])
  have hkeep : ∀ d, d ∈ keep ↔ Descends (parentOf (links s.fc.blocks)) d root := by
    simpa using hkeep'
  refine ⟨_, by rw [ForkChoice.pruneNonFinalized, hmark]; rfl, ?_⟩
  refine ⟨hi.tree.prune hkeep hknown, rfl, ?_, hi.messages, hi.positive, hi.range, ?_, ?_, hi.boost⟩
  · rw [links_prune_of_descends hkeep hjust]
    exact hi.justified
  · intro i hin v hv
    refine Option.eq_none_iff_forall_ne_some.mpr fun e he => ?_
    have hlink := ((links_prune hkeep).mp he).1
    rw [hi.idle i hin v hv] at hlink
    cases hlink
  · intro b node hn
    obtain ⟨hn', hd⟩ := (getElem?_prune hkeep).mp hn
    rw [hi.weights b node hn']
    refine ghostWeight_congr fun i => ?_
    show share _ b (s.active i) = share _ b (s.active i)
    cases hv : s.active i with
    | none => rfl
    | some v => exact share_congr (descends_prune hkeep hd).symm v.2

theorem invariant_updateJustified (hi : Invariant s) (hc : Careful s (.updateJustified root epoch))
    : Invariant ⟨s.fc.updateJustified root epoch, s.votes⟩ := by
  unfold ForkChoice.updateJustified
  split_ifs with hepoch
  · exact ⟨hi.tree, hi.finalized, hc hepoch, hi.messages, hi.positive, hi.range, hi.idle,
      hi.weights, hi.boost⟩
  · exact hi

end Qau.Ghost
