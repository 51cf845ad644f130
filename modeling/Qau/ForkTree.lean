import Qau.ForkChoice
import Qau.Forest

/-!
# The tree of the fork choice

What the loops of the fork choice do on a well-formed tree: the weight update
reaches a block and its ancestors (`climb_spec`), pruning keeps the
descendants of the new root (`markDescendants_spec`), and the walk to the head
takes the child that beats its siblings (`follow_spec`). On such a tree each
loop ends.
-/

namespace Qau.Ghost

open Forest ForkChoice

variable {c p a : Hash} {delta : Int} {children : List Hash}
  {blocks : Blocks} {h b : Hash} {node : BlockNode}

/-- Parent hash and slot of a block, which no call ever changes. -/
abbrev Links := Hash → Option (Hash × UInt64)

def links (blocks : Blocks) : Links := fun h => blocks[h]?.map fun node => (node.parentHash, node.slot)

/-- The parent, if it is known. -/
def parentOf (l : Links) (h : Hash) : Option Hash :=
  (l h).bind fun e => if (l e.1).isSome then some e.1 else none

def slotOf (l : Links) (h : Hash) : Nat := ((l h).map fun e => e.2.toNat).getD 0

theorem links_eq_some {e : Hash × UInt64} :
    links blocks h = some e ↔ ∃ node, blocks[h]? = some node ∧ (node.parentHash, node.slot) = e :=
  Option.map_eq_some_iff

theorem links_of_some (hn : blocks[h]? = some node) :
    links blocks h = some (node.parentHash, node.slot) := by
  rw [links, hn]
  rfl

theorem links_eq_none : links blocks h = none ↔ blocks[h]? = none :=
  Option.map_eq_none_iff

theorem parentOf_eq_some {l : Links} :
    parentOf l c = some p ↔ ∃ slot, l c = some (p, slot) ∧ (l p).isSome := by
  unfold parentOf
  constructor
  · intro h
    obtain ⟨⟨q, slot⟩, hq, hif⟩ := Option.bind_eq_some_iff.mp h
    split_ifs at hif with hk
    obtain rfl := Option.some.inj hif
    exact ⟨slot, hq, hk⟩
  · rintro ⟨slot, hc, hp⟩
    simp [hc, hp]

theorem slotOf_lt (l : Links) (h : Hash) : slotOf l h < 2 ^ 64 := by
  unfold slotOf
  cases l h with
  | none => decide
  | some e => exact e.2.toNat_lt

/-- A tree below `root`: slots grow, the children are listed at their parent,
and the zero hash, which stands for no parent, is not a block. -/
structure Tree (blocks : Blocks) (root : Hash) : Prop where
  zero : blocks[zeroArr 32]? = none
  known : (links blocks root).isSome
  slots : ∀ c p, parentOf (links blocks) c = some p → slotOf (links blocks) p < slotOf (links blocks) c
  children : ∀ h node, blocks[h]? = some node →
    ∀ c, c ∈ node.children ↔ parentOf (links blocks) c = some h
  rooted : ∀ h, (links blocks h).isSome → Descends (parentOf (links blocks)) h root

/-! ## Weights -/

theorem links_insert_addWeight (hn : blocks[h]? = some node) (delta : Int) :
    links (blocks.insert h (node.addWeight delta)) = links blocks := by
  funext b
  unfold links
  rw [Fmap.getElem?_insert]
  split_ifs with hb
  · subst hb
    rw [hn]
    rfl
  · rfl

section Climb

variable {blocks blocks' : Blocks} {h b : Hash} {node : BlockNode}

theorem parentOf_parentHash (hn : blocks[h]? = some node) : parentOf (links blocks) h =
      if (links blocks node.parentHash).isSome then some node.parentHash else none := by
  rw [parentOf, links_of_some hn]
  rfl

theorem parentOf_eq_none (hn : blocks[h]? = none) : parentOf (links blocks) h = none := by
  rw [parentOf, links_eq_none.mpr hn]
  rfl

/-- Descent of a known block, with a parent hash that may be unknown. -/
theorem descends_iff_parentHash (hn : blocks[h]? = some node) (hb : (links blocks b).isSome) :
    Descends (parentOf (links blocks)) h b ↔
      h = b ∨ Descends (parentOf (links blocks)) node.parentHash b := by
  rw [descends_iff_parent, parentOf_parentHash hn]
  by_cases hp : (links blocks node.parentHash).isSome
  · simp [hp]
  · have hnone : links blocks node.parentHash = none := by simpa using hp
    rw [descends_of_root (parentOf_eq_none (links_eq_none.mp hnone))]
    have hne : node.parentHash ≠ b := by
      rintro rfl
      exact hp hb
    simp [hp, hne]

theorem not_descends_parentHash (hslots : ∀ c p, parentOf (links blocks) c = some p →
      slotOf (links blocks) p < slotOf (links blocks) c) (hn : blocks[h]? = some node) :
    ¬ Descends (parentOf (links blocks)) node.parentHash h := by
  by_cases hp : (links blocks node.parentHash).isSome
  · exact not_descends_of_parent hslots (by rw [parentOf_parentHash hn, if_pos hp])
  · have hnone : links blocks node.parentHash = none := by simpa using hp
    rw [descends_of_root (parentOf_eq_none (links_eq_none.mp hnone))]
    intro heq
    rw [heq, links_of_some hn] at hnone
    cases hnone

/-- `blocks'` is `blocks` with `delta` added to `h` and its ancestors. -/
structure Raised (delta : Int) (blocks : Blocks) (h : Hash) (blocks' : Blocks) : Prop where
  above : ∀ b, Descends (parentOf (links blocks)) h b →
    blocks'[b]? = blocks[b]?.map fun node => node.addWeight delta
  beside : ∀ b, ¬ Descends (parentOf (links blocks)) h b → blocks'[b]? = blocks[b]?

theorem raised_unknown (hn : blocks[h]? = none) : Raised delta blocks h blocks where
  above b hd := by
    rw [descends_of_root (parentOf_eq_none hn)] at hd
    rw [← hd, hn]
    rfl
  beside _ _ := rfl

theorem Raised.cons (hslots : ∀ c p, parentOf (links blocks) c = some p →
      slotOf (links blocks) p < slotOf (links blocks) c) (hn : blocks[h]? = some node)
    (hr : Raised delta (blocks.insert h (node.addWeight delta)) node.parentHash blocks') :
    Raised delta blocks h blocks' := by
  obtain ⟨habove, hbeside⟩ := hr
  rw [links_insert_addWeight hn] at habove hbeside
  have hself : blocks'[h]? = some (node.addWeight delta) := by
    rw [hbeside h (not_descends_parentHash hslots hn), Fmap.getElem?_insert_self]
  have hunknown : ∀ b : Hash, blocks[b]? = none → blocks'[b]? = none := by
    intro b hnb
    have hb : h ≠ b := by
      rintro rfl
      rw [hn] at hnb
      cases hnb
    by_cases hp : Descends (parentOf (links blocks)) node.parentHash b
    · rw [habove b hp, Fmap.getElem?_insert_ne _ _ hb, hnb]
      rfl
    · rw [hbeside b hp, Fmap.getElem?_insert_ne _ _ hb, hnb]
  constructor
  · intro b hd
    by_cases hb : h = b
    · subst hb
      rw [hself, hn]
      rfl
    cases hnb : blocks[b]? with
    | none => exact hunknown b hnb
    | some nb =>
      have hp := (descends_iff_parentHash hn (by simp [links_of_some hnb])).mp hd
      rw [habove b (hp.resolve_left hb), Fmap.getElem?_insert_ne _ _ hb, hnb]
  · intro b hd
    have hb : h ≠ b := fun heq => hd (heq ▸ .refl _ _)
    cases hnb : blocks[b]? with
    | none => exact hunknown b hnb
    | some nb =>
      have hiff := descends_iff_parentHash hn (b := b) (by simp [links_of_some hnb])
      rw [hbeside b fun hp => hd (hiff.mpr (.inr hp)), Fmap.getElem?_insert_ne _ _ hb, hnb]

/-- The loop ends and adds to the block it starts from and its ancestors. -/
theorem climb_spec (delta : Int) (fuel : Nat) (hzero : blocks[zeroArr 32]? = none)
    (hslots : ∀ c p, parentOf (links blocks) c = some p →
      slotOf (links blocks) p < slotOf (links blocks) c) (hpos : 0 < fuel)
    (hfuel : (links blocks h).isSome → slotOf (links blocks) h + 2 ≤ fuel) :
    ∃ blocks', climb delta fuel blocks h = some blocks' ∧ Raised delta blocks h blocks' := by
  induction fuel generalizing blocks h with
  | zero => cases hpos
  | succ fuel ih =>
    unfold climb
    cases hn : blocks[h]? with
    | none => exact ⟨blocks, rfl, raised_unknown hn⟩
    | some node =>
      have hsame := links_insert_addWeight hn delta
      have hslot := hfuel (by simp [links_of_some hn])
      -- the weight of the block is set before its parent is looked up
      have hzero' : (blocks.insert h (node.addWeight delta))[zeroArr 32]? = none := by
        rw [← links_eq_none, hsame, links_eq_none, hzero]
      dsimp only
      split_ifs with hp
      · refine ⟨_, rfl, Raised.cons hslots hn ?_⟩
        rw [hp]
        exact raised_unknown hzero'
      · have hnext : (links (blocks.insert h (node.addWeight delta)) node.parentHash).isSome →
            slotOf (links (blocks.insert h (node.addWeight delta))) node.parentHash + 2 ≤ fuel := by
          rw [hsame]
          intro hknown
          have := hslots h node.parentHash (by rw [parentOf_parentHash hn, if_pos hknown])
          omega
        obtain ⟨blocks', hclimb, hr⟩ := ih hzero' (by rwa [hsame]) (by omega) hnext
        exact ⟨blocks', hclimb, hr.cons hslots hn⟩

end Climb

/-! ## Pruning -/

section Prune

variable {fc : ForkChoice} {root : Hash}

theorem mem_childrenOf (ht : Tree fc.blocks root) :
    c ∈ fc.childrenOf h ↔ parentOf (links fc.blocks) c = some h := by
  unfold childrenOf
  cases hn : fc.blocks[h]? with
  | none =>
    simp only [List.not_mem_nil, false_iff]
    intro hp
    obtain ⟨_, -, hknown⟩ := parentOf_eq_some.mp hp
    rw [links_eq_none.mpr hn] at hknown
    cases hknown
  | some node => exact ht.children h node hn c

/-- The loop ends and collects what descends from the level it starts with. -/
theorem markDescendants_spec (fc : ForkChoice) (ht : Tree fc.blocks root) (fuel : Nat)
    (level keep : List Hash) (hpos : 0 < fuel)
    (hfuel : ∀ h ∈ level, 2 ^ 64 + 1 ≤ slotOf (links fc.blocks) h + fuel) :
    ∃ keep', fc.markDescendants fuel level keep = some keep' ∧ ∀ d, d ∈ keep' ↔
      d ∈ keep ∨ ∃ h ∈ level, Descends (parentOf (links fc.blocks)) d h := by
  induction fuel generalizing level keep with
  | zero => cases hpos
  | succ fuel ih =>
    unfold markDescendants
    split_ifs with hlevel
    · exact ⟨keep, rfl, by simp [hlevel]⟩
    obtain ⟨h, hh⟩ := List.exists_mem_of_ne_nil level hlevel
    have hround := hfuel h hh
    have hslot := slotOf_lt (links fc.blocks) h
    have hnext : ∀ c ∈ level.flatMap fc.childrenOf,
        2 ^ 64 + 1 ≤ slotOf (links fc.blocks) c + fuel := by
      intro c hc
      obtain ⟨p, hp, hcp⟩ := List.mem_flatMap.mp hc
      have := ht.slots c p ((mem_childrenOf ht).mp hcp)
      have := hfuel p hp
      omega
    obtain ⟨keep', hmark, hkeep⟩ := ih _ (level ++ keep) (by omega) hnext
    refine ⟨keep', hmark, fun d => ?_⟩
    simp only [hkeep d, List.mem_append, List.mem_flatMap, mem_childrenOf ht]
    constructor
    · rintro ((hd | hd) | ⟨c, ⟨p, hp, hcp⟩, hd⟩)
      · exact .inr ⟨d, hd, .refl _ _⟩
      · exact .inl hd
      · exact .inr ⟨p, hp, hd.down hcp⟩
    · rintro (hd | ⟨p, hp, hd⟩)
      · exact .inl (.inr hd)
      · rcases descends_iff_child.mp hd with rfl | ⟨c, hcp, hc⟩
        · exact .inl (.inl hp)
        · exact .inr ⟨c, ⟨p, hp, hcp⟩, hc⟩

end Prune

/-! ## The head -/

/-- The heavier of two children, and of two equally heavy ones the one with
the smaller hash. -/
def Beats (score : Hash → Int) (c c' : Hash) : Prop :=
  score c' < score c ∨ score c' = score c ∧ (compare c c').isLE

theorem Beats.refl (score : Hash → Int) (c : Hash) : Beats score c c := .inr ⟨rfl, by simp⟩

theorem Beats.trans {score : Hash → Int} (h : Beats score a b) (h' : Beats score b c) :
    Beats score a c := by
  rcases h with hlt | ⟨heq, hle⟩ <;> rcases h' with hlt' | ⟨heq', hle'⟩
  · exact .inl (hlt'.trans hlt)
  · exact .inl (heq'.trans_lt hlt)
  · exact .inl (heq ▸ hlt')
  · exact .inr ⟨heq'.trans heq, Std.TransOrd.isLE_trans hle hle'⟩

theorem Beats.antisymm {score : Hash → Int} (h : Beats score a b) (h' : Beats score b a) :
    a = b := by
  rcases h with hlt | ⟨heq, hle⟩ <;> rcases h' with hlt' | ⟨heq', hle'⟩
  · exact absurd (hlt.trans hlt') (lt_irrefl _)
  · exact absurd hlt (heq' ▸ lt_irrefl _)
  · exact absurd hlt' (heq ▸ lt_irrefl _)
  · exact Std.LawfulEqOrd.eq_of_compare (Std.OrientedCmp.isLE_antisymm hle hle')

/-- The child that a walk to the head takes. -/
def Heaviest (parent : Hash → Option Hash) (score : Hash → Int) (p c : Hash) : Prop :=
  parent c = some p ∧ ∀ c', parent c' = some p → Beats score c c'

/-- The end of the walk from `start` by heaviest children. -/
structure IsHead (parent : Hash → Option Hash) (score : Hash → Int) (start head : Hash) : Prop where
  path : Relation.ReflTransGen (Heaviest parent score) start head
  leaf : ∀ c, parent c ≠ some head

section Head

variable {parent : Hash → Option Hash} {score score' : Hash → Int} {start head head' : Hash}

theorem Heaviest.unique {c' : Hash} (h : Heaviest parent score p c)
    (h' : Heaviest parent score p c') : c = c' :=
  (h.2 c' h'.1).antisymm (h'.2 c h.1)

theorem IsHead.unique (h : IsHead parent score start head) (h' : IsHead parent score start head') :
    head = head' := by
  obtain ⟨hpath, hleaf⟩ := h
  obtain ⟨hpath', hleaf'⟩ := h'
  induction hpath using Relation.ReflTransGen.head_induction_on with
  | refl =>
    rcases Relation.ReflTransGen.cases_head hpath' with heq | ⟨c, hc, -⟩
    · exact heq
    · exact absurd hc.1 (hleaf c)
  | head hc _ ih =>
    rcases Relation.ReflTransGen.cases_head hpath' with heq | ⟨c', hc', hrest⟩
    · exact absurd hc.1 (heq ▸ hleaf' _)
    · exact ih (hc.unique hc' ▸ hrest)

theorem IsHead.descends (h : IsHead parent score start head) : Descends parent head start := by
  obtain ⟨hpath, -⟩ := h
  induction hpath using Relation.ReflTransGen.head_induction_on with
  | refl => exact .refl _ _
  | head hc _ ih => exact ih.down hc.1

theorem IsHead.congr (hscore : ∀ c p, parent c = some p → score c = score' c)
    (h : IsHead parent score start head) : IsHead parent score' start head := by
  refine ⟨Relation.ReflTransGen.mono (fun p c hc => ⟨hc.1, fun c' hc' => ?_⟩) _ _ h.path, h.leaf⟩
  have hbeats := hc.2 c' hc'
  rwa [Beats, hscore c p hc.1, hscore c' p hc'] at hbeats

end Head

section Follow

variable {fc : ForkChoice} {root : Hash}

/-- The weight of a child with its boost. -/
def ForkChoice.score (fc : ForkChoice) (h : Hash) : Int :=
  match fc.blocks[h]? with
  | none => 0
  | some node => node.weight + fc.boost h node.slot

theorem better_none (hc : fc.blocks[c]?.isSome) (hnonneg : 0 ≤ fc.score c) :
    fc.better none c = some (c, fc.score c) := by
  obtain ⟨node, hn⟩ := Option.isSome_iff_exists.mp hc
  simp only [better, score, hn] at hnonneg ⊢
  rw [if_pos (by omega)]

/-- A round keeps a best child with its score, and what it beats. -/
theorem better_some (hc : fc.blocks[c]?.isSome) :
    ∃ b', fc.better (some (b, fc.score b)) c = some (b', fc.score b') ∧ (b' = b ∨ b' = c) ∧
      Beats fc.score b' b ∧ Beats fc.score b' c := by
  obtain ⟨node, hn⟩ := Option.isSome_iff_exists.mp hc
  have hscore : fc.score c = node.weight + fc.boost c node.slot := by rw [score, hn]
  simp only [better, hn, ← hscore]
  split_ifs with hgt heq
  · exact ⟨c, rfl, .inr rfl, .inl hgt, .refl _ _⟩
  · refine ⟨c, by rw [heq.1], .inr rfl, .inr ⟨heq.1.symm, ?_⟩, .refl _ _⟩
    rw [heq.2]
    rfl
  · refine ⟨b, rfl, .inl rfl, .refl _ _, ?_⟩
    rcases lt_or_eq_of_le (not_lt.mp hgt) with hlt | hsame
    · exact .inl hlt
    · refine .inr ⟨hsame, ?_⟩
      rw [Std.OrientedOrd.eq_swap]
      cases hcmp : compare c b with
      | lt => exact absurd ⟨hsame, hcmp⟩ heq
      | eq => rfl
      | gt => rfl

theorem foldl_better (hknown : ∀ c ∈ children, fc.blocks[c]?.isSome) (b : Hash) :
    ∃ b', children.foldl fc.better (some (b, fc.score b)) = some (b', fc.score b') ∧
      b' ∈ b :: children ∧ ∀ c ∈ b :: children, Beats fc.score b' c := by
  induction children generalizing b with
  | nil => exact ⟨b, rfl, by simp, by simp [Beats.refl]⟩
  | cons c children ih =>
    obtain ⟨b₁, hround, hmem₁, hb₁, hc₁⟩ := better_some (b := b) (hknown c (by simp))
    obtain ⟨b₂, hfold, hmem₂, hbeats⟩ := ih (fun c hc => hknown c (by simp [hc])) b₁
    refine ⟨b₂, by rw [List.foldl_cons, hround, hfold], ?_, ?_⟩
    · rcases List.mem_cons.mp hmem₂ with rfl | hmem
      · rcases hmem₁ with rfl | rfl <;> simp
      · simp [hmem]
    · intro x hx
      have h₂₁ := hbeats b₁ (by simp)
      rcases List.mem_cons.mp hx with rfl | hx
      · exact h₂₁.trans hb₁
      rcases List.mem_cons.mp hx with rfl | hx
      · exact h₂₁.trans hc₁
      · exact hbeats x (by simp [hx])

theorem bestChild_spec (hknown : ∀ c ∈ children, fc.blocks[c]?.isSome)
    (hnonneg : ∀ h, 0 ≤ fc.score h) (hne : children ≠ []) :
    ∃ c ∈ children, fc.bestChild children = some c ∧ ∀ c' ∈ children, Beats fc.score c c' := by
  cases children with
  | nil => exact absurd rfl hne
  | cons c children =>
    have hrest : ∀ c' ∈ children, fc.blocks[c']?.isSome := fun c' hc' => hknown c' (by simp [hc'])
    obtain ⟨b, hfold, hmem, hbeats⟩ := foldl_better hrest c
    refine ⟨b, hmem, ?_, hbeats⟩
    rw [bestChild, List.foldl_cons, better_none (hknown c (by simp)) (hnonneg c), hfold]
    rfl

theorem follow_spec (ht : Tree fc.blocks root) (hnonneg : ∀ h, 0 ≤ fc.score h) (fuel : Nat)
    {current : Hash} (hpos : 0 < fuel) (hknown : (links fc.blocks current).isSome)
    (hfuel : 2 ^ 64 + 1 ≤ slotOf (links fc.blocks) current + fuel) :
    ∃ head, fc.follow fuel current = some head ∧
      IsHead (parentOf (links fc.blocks)) fc.score current head := by
  induction fuel generalizing current with
  | zero => cases hpos
  | succ fuel ih =>
    obtain ⟨e, he⟩ := Option.isSome_iff_exists.mp hknown
    obtain ⟨node, hn, -⟩ := links_eq_some.mp he
    have hchildren := ht.children current node hn
    simp only [follow, hn]
    by_cases hne : node.children = []
    · refine ⟨current, by rw [hne]; rfl, .refl, fun c hc => ?_⟩
      have := (hchildren c).mpr hc
      simp [hne] at this
    have hknown' : ∀ c ∈ node.children, fc.blocks[c]?.isSome := by
      intro c hc
      obtain ⟨slot, hl, -⟩ := parentOf_eq_some.mp ((hchildren c).mp hc)
      obtain ⟨nc, hnc, -⟩ := links_eq_some.mp hl
      simp [hnc]
    obtain ⟨c, hc, hbest, hbeats⟩ := bestChild_spec hknown' hnonneg hne
    have hparent := (hchildren c).mp hc
    have hslot := ht.slots c current hparent
    have hlt := slotOf_lt (links fc.blocks) c
    obtain ⟨slot, hl, -⟩ := parentOf_eq_some.mp hparent
    have hc' : (links fc.blocks c).isSome := by simp [hl]
    obtain ⟨head, hfollow, hpath, hleaf⟩ := ih (by omega) hc' (by omega)
    refine ⟨head, by rw [hbest]; exact hfollow, .head ⟨hparent, fun c' hc' => ?_⟩ hpath, hleaf⟩
    exact hbeats c' ((hchildren c').mpr hc')

end Follow

end Qau.Ghost
