import Qau.VerkleSound

/-!
# Completeness of Verkle proofs

What `Prove` collects on its way down, read off the radix tree (`trail`),
and that the verifier accepts it: every level recomputes
(`verifyLevels_trail`), and the evidence at a fork is good
(`evidence_trail`). What can still fail is outside the levels. A short key
may lie deeper than it has bytes; the value may exceed the limit on the
size of a proof; and `proveWalk` takes the leaf it ends in for the key's
own, without comparing stems, when the leaf has an entry in the key's
suffix slot or lies at the full depth. `prove_complete` says that these are
the only failures.
-/

namespace Qau

open StemTree VerkleProof VerkleTree ProofWalk

variable {key v : Bytes} {lvl : List SiblingWithIdx} {ext : ExtensionLevelData} {hash : Hash}
  {p pre q : Bytes} {T : StemTree} {n : LeafNode} {pr : VerkleProof}

/-! ## The way down -/

/-- What the descent along a stem passes: the levels, the siblings beside
it, and the depth where it ends. -/
structure Descent where
  levels : Nat
  siblings : Nat
  depth : Nat
deriving DecidableEq

section
variable (sha3 : Bytes → Hash)

def VerkleTree.descent (pdb : Kv) (t : VerkleTree) :
    Nat → Option TreeNode → Stem → Nat → Descent
  | 0, _, _, depth => { levels := 0, siblings := 0, depth := depth }
  | _, none, _, depth => { levels := 0, siblings := 0, depth := depth }
  | fuel + 1, some node, stem, depth =>
    match node with
    | .leaf _ => { levels := 0, siblings := 0, depth := depth }
    | .internal children =>
      match stem.toList[depth]? with
      | none => { levels := 0, siblings := 0, depth := depth }
      | some idx =>
        let d := t.descent pdb fuel (t.getNode pdb (children idx)) stem (depth + 1)
        { levels := d.levels + 1
          siblings := (levelSiblings children idx).length + d.siblings
          depth := d.depth }
    | .extension s stemLen _ | .extensionRef s stemLen _ =>
      if stemLen = 0 ∨ StemSize < stemLen then { levels := 0, siblings := 0, depth := depth }
      else if s.toList.take stemLen <+: stem.toList.drop depth then
        let d := t.descent pdb fuel (t.extensionChild pdb node) stem (depth + stemLen)
        { d with levels := d.levels + 1 }
      else { levels := 0, siblings := 0, depth := depth }

def VerkleTree.descentTo (pdb : Kv) (t : VerkleTree) (key : Bytes) : Descent :=
  t.descent pdb treeFuel t.rootNode (keyToStem sha3 key) 0

/-- The descent for a key ends in a leaf at the full depth of a stem. -/
def VerkleTree.AtBottom (pdb : Kv) (t : VerkleTree) (key : Bytes) : Prop :=
  (t.descend pdb treeFuel t.rootNode (keyToStem sha3 key) 0).isSome ∧
    (t.descentTo sha3 pdb key).depth = StemSize

/-- A proof that passes, and is an inclusion proof with the stored value
exactly when the key is there. -/
def VerkleTree.Proves (pdb : Kv) (t : VerkleTree) (key : Bytes) : Prop :=
  (t.prove sha3 pdb key).verify sha3 t.root = true ∧
    match t.get sha3 pdb key with
    | .ok v => (t.prove sha3 pdb key).isExclusion = false ∧ (t.prove sha3 pdb key).value = v
    | .error _ => (t.prove sha3 pdb key).isExclusion = true

instance (pdb : Kv) (t : VerkleTree) (key : Bytes) : Decidable (t.AtBottom sha3 pdb key) :=
  inferInstanceAs (Decidable (_ ∧ _))

instance (pdb : Kv) (t : VerkleTree) (key : Bytes) : Decidable (t.Proves sha3 pdb key) := by
  unfold VerkleTree.Proves
  cases t.get sha3 pdb key <;> infer_instance

/-- What `proveWalk` collects in a subtree, and where it ends. -/
structure Trail where
  path : List Hash
  siblings : List (List SiblingWithIdx) := []
  extStems : List ExtensionLevelData := []
  evidence : Option ExclusionEvidence := none
  found : Option LeafNode := none
  depth : Nat := 0

def trail (key : Bytes) : StemTree → Bytes → Trail
  | .empty, _ => { path := [zeroHash], evidence := some { type := .emptySlot } }
  | .leaf _ n, p =>
    if p = [] ∨ n.lookup key ≠ none then { path := [], found := some n }
    else
      { path := [sha3 n.message],
        evidence := some { type := .leafMismatch, encodedLeaf := n.encode } }
  | .node _, [] => { path := [] }
  | .node c, i :: p =>
    let r := trail key (c i) p
    { r with
      path := StemTree.hash sha3 (.node c) :: r.path
      siblings := levelSiblings (fun j => StemTree.hash sha3 (c j)) i :: r.siblings
      extStems := { stem := zeroArr 31, stemLen := 0 } :: r.extStems
      depth := r.depth + 1 }
  | .run s u, p =>
    match Radix.strip s p with
    | some q =>
      let r := trail key u q
      { r with
        path := StemTree.hash sha3 (.run s u) :: r.path
        siblings := [] :: r.siblings
        extStems := { stem := copyInto 31 s, stemLen := s.length } :: r.extStems
        depth := s.length + r.depth }
    | none =>
      { path := [StemTree.hash sha3 (.run s u)],
        evidence := some
          { type := .extensionMismatch, extensionStem := copyInto 31 s,
            extensionStemLen := s.length, extensionChild := StemTree.hash sha3 u } }

abbrev trailTo (T : StemTree) (key : Bytes) : Trail := trail sha3 key T (keyToStem sha3 key).toList

/-- The path of the proof: with the hash of the leaf that was found. -/
def Trail.full (r : Trail) : List Hash := r.path ++ r.found.toList.map fun n => sha3 n.message

/-- The accumulators after a walk. -/
def ProofWalk.add (w : ProofWalk) (r : Trail) : ProofWalk :=
  { path := w.path ++ r.path, siblings := w.siblings ++ r.siblings,
    extStems := w.extStems ++ r.extStems, evidence := r.evidence.or w.evidence }

end

variable {r : Trail}

section
variable {sha3 : Bytes → Hash} {pdb : Kv}

section
variable {t : VerkleTree} {n : TreeNode} {s pre p : Bytes} {u T : StemTree} {stem : Stem} {fuel : Nat}

theorem proveWalk_extension (h : AtRun sha3 pdb t stem s u n pre p) (fuel : Nat) (key : Bytes)
    (w : ProofWalk) : t.proveWalk sha3 pdb (fuel + 1) (some n) stem key pre.length w =
      let w := { w with path := w.path ++ [StemTree.hash sha3 (.run s u)] }
      if s <+: stem.toList.drop pre.length then
        let w := { w with
          siblings := w.siblings ++ [[]]
          extStems := w.extStems ++ [{ stem := copyInto 31 s, stemLen := s.length }] }
        t.proveWalk sha3 pdb fuel (t.extensionChild pdb n) stem key (pre.length + s.length) w
      else
        (none, { w with
          evidence := some
            { type := .extensionMismatch, extensionStem := copyInto 31 s,
              extensionStemLen := s.length, extensionChild := StemTree.hash sha3 u } }) := by
  obtain ⟨i, hidx⟩ := h.getElem?
  have hhash : n.hash sha3 = StemTree.hash sha3 (.run s u) := (h.node.top h.wf).hash_eq
  have hm := h.node
  have hchild : n.childHash sha3 = StemTree.hash sha3 u := by
    cases hm with
    | extension => exact hash_nodeOf h.ne_empty
    | extensionRef => rfl
  cases hm <;>
    simp only [proveWalk, hidx, if_neg h.guard, h.take, hhash, hchild]

theorem proveWalk_spec (h : Descends sha3 pdb t stem T fuel n pre p) (w : ProofWalk) :
    t.proveWalk sha3 pdb fuel (some n) stem key pre.length w =
      ((trail sha3 key T p).found.map TreeNode.leaf, w.add (trail sha3 key T p)) := by
  induction h using Descends.rule generalizing w with
  | leaf r n fuel pre p h =>
    cases p with
    | nil =>
      have hidx : stem.toList[pre.length]? = none := by rw [h.stem]; simp
      simp [proveWalk, hidx, trail, add]
    | cons i p =>
      have hidx : stem.toList[pre.length]? = some i := by
        rw [h.stem]; exact getElem?_length_append ..
      by_cases hl : n.lookup key = none
      · simp [proveWalk, hidx, trail, add, hl, TreeNode.hash]
      · simp [proveWalk, hidx, trail, add, hl]
  | slot c fuel pre i p h hidx hci hget =>
    have hz : StemTree.hash sha3 (c i) = zeroHash := by rw [hci]; rfl
    simp only [proveWalk, hidx, if_pos hz]
    simp [trail, hci, add, TreeNode.hash, StemTree.hash, Radix.hash, verkle]
  | child c fuel pre i p h h' hidx hci hget ih =>
    simp only [proveWalk, hidx,
      if_neg (h.reads.hash_ne_zero (.inr ⟨i, Radix.mem_subs_self hci⟩)), hget]
    have hlen : pre.length + 1 = (pre ++ [i]).length := by simp
    rw [hlen, ih]
    simp [trail, add, TreeNode.hash, StemTree.hash, Radix.hash, verkle]
  | run s u fuel n pre q h h' hrun hpre ih =>
    rw [proveWalk_extension hrun]
    simp only [if_pos hpre, hrun.child, ← List.length_append, ih]
    simp [trail, add]
  | leave s u fuel n pre p h hrun hpre hstrip =>
    rw [proveWalk_extension hrun]
    simp only [if_neg hpre]
    simp [trail, hstrip, add]

theorem descent_none (t : VerkleTree) (fuel : Nat) (stem : Stem) (depth : Nat) :
    t.descent pdb fuel none stem depth = { levels := 0, siblings := 0, depth := depth } := by
  cases fuel <;> rfl

theorem descent_extension (h : AtRun sha3 pdb t stem s u n pre p) (fuel : Nat) :
    t.descent pdb (fuel + 1) (some n) stem pre.length =
      if s <+: stem.toList.drop pre.length then
        let d := t.descent pdb fuel (t.extensionChild pdb n) stem (pre.length + s.length)
        { d with levels := d.levels + 1 }
      else { levels := 0, siblings := 0, depth := pre.length } := by
  have hm := h.node
  cases hm <;> simp only [descent, if_neg h.guard, h.take]

theorem descent_spec (key : Bytes) (h : Descends sha3 pdb t stem T fuel n pre p) :
    t.descent pdb fuel (some n) stem pre.length =
      { levels := (trail sha3 key T p).siblings.length
        siblings := ((trail sha3 key T p).siblings.map List.length).sum
        depth := pre.length + (trail sha3 key T p).depth } := by
  induction h using Descends.rule with
  | leaf r n fuel pre p h =>
    simp only [trail]
    split <;> simp [descent]
  | slot c fuel pre i p h hidx hci hget =>
    simp only [descent, hidx, trail, hget, descent_none]
    rw [hci]
    simp [trail]
  | child c fuel pre i p h h' hidx hci hget ih =>
    rw [List.length_append] at ih
    simp only [descent, hidx, trail, hget]
    rw [show pre.length + 1 = pre.length + [i].length from rfl, ih]
    simp only [List.length_cons, List.length_nil, List.map_cons, List.sum_cons]
    congr 1
    omega
  | run s u fuel n pre q h h' hrun hpre ih =>
    rw [descent_extension hrun, if_pos hpre, hrun.child, ← List.length_append, ih]
    simp [trail, Nat.add_assoc]
  | leave s u fuel n pre p h hrun hpre hstrip =>
    rw [descent_extension hrun, if_neg hpre]
    simp [trail, hstrip]

end

/-! ## The verifier accepts the trail -/

theorem parentChildren_levelSiblings (children : UInt8 → Hash) (idx : UInt8) :
    parentChildren (children idx) (levelSiblings children idx) idx = children := by
  funext j
  rw [parentChildren, levelSiblings, foldl_placeSibling_map]
  split
  · rfl
  · next hj =>
    by_cases hji : j = idx
    · subst hji; rw [Function.update_self]
    · rw [Function.update_of_ne hji]
      by_contra hne
      refine hj (List.mem_filter.mpr ⟨mem_slots j, ?_⟩)
      simpa using ⟨hji, Ne.symm hne⟩

theorem levelValid_levelSiblings (children : UInt8 → Hash) (idx : UInt8) :
    levelValid (levelSiblings children idx) = true :=
  levelValid_map (slots_nodup.filter _)
    ((List.length_filter_le ..).trans slots_length.le) children

/-- The shape of what `proveWalk` collects is what `validateStructure`
asks for. -/
structure Trail.Shaped (sha3 : Bytes → Hash) (r : Trail) (p : Bytes) : Prop where
  path : (r.full sha3).length = r.siblings.length + 1
  exts : r.extStems.length = r.siblings.length
  runs : ∀ l ∈ r.extStems.zip r.siblings,
    l.1.stemLen ≤ 0 ∨ (l.1.stemLen ≤ StemSize ∧ l.2 = [])
  valid : ∀ lvl ∈ r.siblings, levelValid lvl = true
  depth : r.siblings.length ≤ p.length

/-- The trail from one level further up. -/
def Trail.push (r : Trail) (hash : Hash) (lvl : List SiblingWithIdx) (ext : ExtensionLevelData)
    (k : Nat) : Trail :=
  { r with
    path := hash :: r.path, siblings := lvl :: r.siblings, extStems := ext :: r.extStems,
    depth := r.depth + k }

variable (sha3) in
theorem trail_run (key s q : Bytes) (u : StemTree) : trail sha3 key (.run s u) (s ++ q) =
    (trail sha3 key u q).push (StemTree.hash sha3 (.run s u)) []
      { stem := copyInto 31 s, stemLen := s.length } s.length := by
  simp [trail, Trail.push, Nat.add_comm]

theorem Trail.Shaped.push {p' : Bytes} (h : r.Shaped sha3 p) (hvalid : levelValid lvl = true)
    (hrun : ext.stemLen ≤ 0 ∨ (ext.stemLen ≤ StemSize ∧ lvl = [])) (hlen : p.length < p'.length)
    {k : Nat} : (r.push hash lvl ext k).Shaped sha3 p' where
  path := by simpa [Trail.full, Trail.push] using h.path
  exts := by simpa [Trail.push] using h.exts
  runs := List.forall_mem_cons.mpr ⟨hrun, h.runs⟩
  valid := List.forall_mem_cons.mpr ⟨hvalid, h.valid⟩
  depth := h.depth.trans_lt hlen

theorem shaped_trail (hwf : Radix.WF p.length T) (hp31 : p.length ≤ StemSize) :
    (trail sha3 key T p).Shaped sha3 p := by
  induction hwf using Radix.WF.along with
  | empty p hwf => constructor <;> simp [trail, Trail.full]
  | leaf r n p hwf =>
    simp only [trail]
    split <;> constructor <;> simp [Trail.full]
  | node c i p hwf hc ih =>
    exact (ih (by simp at hp31 ⊢; omega)).push (levelValid_levelSiblings _ _) (.inl le_rfl) (by simp)
  | run s u q hwf hu ih =>
    have hspos : 0 < s.length := List.length_pos_iff.mpr hwf.1
    rw [List.length_append] at hp31
    rw [trail_run]
    exact (ih (by omega)).push rfl (.inr ⟨by simp only [StemSize] at hp31 ⊢; omega, rfl⟩)
      (by rw [List.length_append]; omega)
  | leave s u p hwf hstrip =>
    simp only [trail, hstrip]
    constructor <;> simp [Trail.full]

variable (sha3) in
theorem head_trail (key : Bytes) (hwf : Radix.WF p.length T) :
    ((trail sha3 key T p).full sha3).head? = some (StemTree.hash sha3 T) := by
  induction hwf using Radix.WF.along with
  | empty p hwf => rfl
  | leaf r n p hwf =>
    simp only [trail]
    split <;> rfl
  | node c i p hwf hc ih => rfl
  | run s u q hwf hu ih => simp [trail, Trail.full]
  | leave s u p hwf hstrip => simp [trail, hstrip, Trail.full]

variable (sha3) in
theorem verifyLevels_trail (key : Bytes) {stem : Stem} (hwf : Radix.WF p.length T)
    (hstem : stem.toList = pre ++ p) :
    verifyLevels sha3 stem pre.length ((trail sha3 key T p).full sha3)
      (trail sha3 key T p).siblings (trail sha3 key T p).extStems
        = some (pre.length + (trail sha3 key T p).depth) := by
  induction hwf using Radix.WF.along generalizing pre with
  | empty p hwf => simp [trail, verifyLevels]
  | leaf r n p hwf =>
    simp only [trail]
    split <;> simp [verifyLevels]
  | node c i p hwf hc ih =>
    have hidx : stem.toList[pre.length]? = some i := by
      rw [hstem]; exact getElem?_length_append ..
    have hrec := @ih (pre ++ [i]) (by simpa using hstem)
    obtain ⟨path, hpath⟩ := List.head?_eq_some_iff.mp (head_trail sha3 key hc)
    have hfull : (trail sha3 key (.node c) (i :: p)).full sha3
        = StemTree.hash sha3 (.node c) :: StemTree.hash sha3 (c i) :: path := by
      rw [← hpath]; rfl
    rw [hfull, trail]
    simp only [verifyLevels, extensionLevel, lt_irrefl, if_false, hidx, recomputeParent,
      parentChildren_levelSiblings (fun j => StemTree.hash sha3 (c j)) i, List.tail_cons]
    rw [if_neg (by rw [not_not]; rfl), ← hpath]
    simp only [List.length_append, List.length_cons, List.length_nil] at hrec
    rw [hrec]
    congr 1
    omega
  | run s u q hwf hu ih =>
    have hspos : 0 < s.length := List.length_pos_iff.mpr hwf.1
    have h31 := congrArg List.length hstem
    simp only [List.Vector.toList_length, List.length_append] at h31
    have hrec := @ih (pre ++ s) (by simpa using hstem)
    obtain ⟨path, hpath⟩ := List.head?_eq_some_iff.mp (head_trail sha3 key hu)
    have hfull : (trail sha3 key (.run s u) (s ++ q)).full sha3
        = StemTree.hash sha3 (.run s u) :: StemTree.hash sha3 u :: path := by
      rw [← hpath]
      simp [trail, Trail.full]
    have hext : ∀ l, extensionLevel ({ stem := copyInto 31 s, stemLen := s.length } :: l)
        = some { stem := copyInto 31 s, stemLen := s.length } :=
      fun l => if_pos (Int.natCast_pos.mpr hspos)
    have hover : ¬ StemSize < pre.length + s.length := by simp only [StemSize]; omega
    have hseg : (stem.toList.drop pre.length).take s.length
        = (copyInto 31 s).toList.take s.length := by
      rw [drop_stem hstem, take_copyInto (by omega), List.take_left' rfl]
    rw [hfull]
    simp only [trail, Radix.strip_append]
    simp only [verifyLevels, hext, Int.toNat_natCast, List.tail_cons]
    rw [if_neg hover, if_neg (not_not.mpr hseg), if_neg (by rw [not_not]; rfl), ← hpath]
    simp only [List.length_append] at hrec
    rw [hrec]
    congr 1
    omega
  | leave s u p hwf hstrip => simp [trail, hstrip, verifyLevels]

/-- The leaf `proveWalk` finds: the one the descent ends in, if it answers
the key or lies at the full depth. -/
theorem found_trail (hwf : Radix.WF p.length T) :
    (trail sha3 key T p).found = (Radix.landing T p).bind fun l =>
      if l.2.lookup key ≠ none ∨ (trail sha3 key T p).depth = p.length then some l.2
      else none := by
  induction hwf using Radix.WF.along with
  | empty p hwf => rfl
  | leaf r n p hwf =>
    cases p with
    | nil => simp [trail, Radix.landing]
    | cons i p => by_cases hl : n.lookup key = none <;> simp [trail, Radix.landing, hl]
  | node c i p hwf hc ih =>
    simp only [trail, Radix.landing, ih, Option.bind_map, List.length_cons]
    congr 1
    funext l
    simp
  | run s u q hwf hu ih =>
    simp only [trail, Radix.landing, Radix.strip_append, ih, Option.bind_some, Option.bind_map,
      List.length_append]
    congr 1
    funext l
    simp
  | leave s u p hwf hstrip => simp [trail, Radix.landing, hstrip]

/-- The last hash of the path is that of the leaf that was found. -/
theorem last_trail_found (h : (trail sha3 key T p).found = some n) :
    ((trail sha3 key T p).full sha3).getLast? = some (sha3 n.message) := by
  rw [Trail.full, h]
  simp

theorem evidence_push {d d' k : Nat} (h : ∃ last, (r.full sha3).getLast? = some last ∧
      pr.verifyExclusionEvidence sha3 (d' + r.depth) last = true) (hd : d' = d + k) :
    ∃ last, ((r.push hash lvl ext k).full sha3).getLast? = some last ∧
      pr.verifyExclusionEvidence sha3 (d + (r.push hash lvl ext k).depth) last = true := by
  obtain ⟨last, hlast, hv⟩ := h
  have hfull : (r.push hash lvl ext k).full sha3 = hash :: r.full sha3 := rfl
  have hdepth : d + (r.depth + k) = d' + r.depth := by omega
  exact ⟨last, by rw [hfull, List.getLast?_cons, hlast]; rfl, hdepth.symm ▸ hv⟩

theorem evidence_trail (hwf : Radix.WF p.length T)
    (hstem : (keyToStem sha3 pr.key).toList = pre ++ p)
    (henc : ∀ q n, Radix.find T q = some n → n.encodable = true)
    (hev : pr.exclusionEvidence = (trail sha3 pr.key T p).evidence)
    (hnone : (trail sha3 pr.key T p).found = none) :
    ∃ last, ((trail sha3 pr.key T p).full sha3).getLast? = some last ∧
      pr.verifyExclusionEvidence sha3 (pre.length + (trail sha3 pr.key T p).depth) last
        = true := by
  induction hwf using Radix.WF.along generalizing pre with
  | empty p hwf =>
    refine ⟨zeroHash, rfl, ?_⟩
    simp [verifyExclusionEvidence, hev, trail]
  | leaf r n p hwf =>
    by_cases hl : p = [] ∨ n.lookup pr.key ≠ none
    · simp [trail, hl] at hnone
    · have hn := henc r n (if_pos rfl)
      have hne : n.encode ≠ [] := by simp [LeafNode.encode, hn]
      rw [not_or, not_not] at hl
      refine ⟨sha3 n.message, by simp [trail, hl, Trail.full], ?_⟩
      simp [verifyExclusionEvidence, hev, trail, hl, hne, decodeLeafNode_encode hn]
  | node c i p hwf hc ih =>
    exact evidence_push (@ih (pre ++ [i]) (by simpa using hstem)
      (fun q n hq => henc (i :: q) n hq) hev hnone) (by simp)
  | run s u q hwf hu ih =>
    rw [trail_run] at hev hnone ⊢
    exact evidence_push (@ih (pre ++ s) (by simpa using hstem)
      (fun q n hq => henc (s ++ q) n (by simpa [Radix.find] using hq)) hev hnone) (by simp)
  | leave s u p hwf hstrip =>
    obtain ⟨-, -, k, hk, -⟩ := hwf
    have h31 := congrArg List.length hstem
    simp only [List.Vector.toList_length, List.length_append] at h31
    have hseg : p.take s.length ≠ s := by
      intro h
      obtain ⟨q, rfl⟩ : s <+: p := h ▸ List.take_prefix ..
      simp at hstrip
    refine ⟨StemTree.hash sha3 (.run s u), by simp [trail, hstrip, Trail.full], ?_⟩
    have hover : ¬ StemSize < pre.length + s.length := by simp only [StemSize]; omega
    have hrange : ¬ ((s.length : Int) < 0 ∨ (StemSize : Int) < s.length) := by
      simp only [StemSize]; omega
    have hhash : sha3 (extensionMessage (copyInto 31 s) (StemTree.hash sha3 u))
        = StemTree.hash sha3 (.run s u) := rfl
    simp only [verifyExclusionEvidence, hev, trail, hstrip, hhash,
      Nat.add_zero, Int.toNat_natCast, if_neg hover, if_neg hrange, drop_stem hstem,
      take_copyInto (show s.length ≤ 31 by omega)]
    simp [hseg]

/-! ## The prover -/

theorem prove_rep {P : Set (Bytes × Bytes)} {t : VerkleTree} (h : Rep sha3 pdb P t T)
    (hne : T ≠ .empty) (key : Bytes) : t.prove sha3 pdb key =
      let r := trailTo sha3 T key
      match r.found with
      | none =>
        { key := key, path := r.path, siblings := r.siblings, extensionStems := r.extStems,
          isExclusion := true, exclusionEvidence := r.evidence }
      | some n =>
        { key := key, path := r.path ++ [sha3 n.message], siblings := r.siblings,
          extensionStems := r.extStems, value := n.provenValue key,
          stemHash := sha3 n.message, inclusionLeaf := n.encode } := by
  rw [prove]
  rcases h.root_cases key with ⟨-, rfl⟩ | ⟨n, hn, hdesc⟩
  · exact absurd rfl hne
  have hwalk : t.proveWalk sha3 pdb treeFuel (some n) (keyToStem sha3 key) key 0 {} =
      ((trailTo sha3 T key).found.map TreeNode.leaf,
        add {} (trailTo sha3 T key)) :=
    proveWalk_spec hdesc {}
  simp only [hn, hwalk]
  cases (trailTo sha3 T key).found with
  | none => simp [add]
  | some n => simp [add]

/-! ## The limits on the size of a proof -/

theorem sum_siblings_le {L : List (List SiblingWithIdx)} (h : ∀ lvl ∈ L, levelValid lvl = true) :
    (L.map List.length).sum ≤ 256 * L.length := by
  induction L with
  | nil => simp
  | cons lvl L ih =>
    have hL := ih fun l hl => h l (List.mem_cons_of_mem _ hl)
    have hlvl := h lvl (List.mem_cons_self ..)
    simp only [levelValid, Bool.and_eq_true, decide_eq_true_eq] at hlvl
    have hlen : lvl.length ≤ 256 := hlvl.1.1
    simp only [List.map_cons, List.sum_cons, List.length_cons]
    omega

theorem sum_sibling_bytes (L : List (List SiblingWithIdx)) :
    (L.map fun lvl => lvl.length * (32 + 8)).sum = 40 * (L.map List.length).sum := by
  induction L with
  | nil => rfl
  | cons lvl L ih =>
    simp only [List.map_cons, List.sum_cons, ih]
    omega

/-- Of the checks of `validateStructure` a proof made from a trail can fail
two: the number of levels and the size. -/
theorem validateStructure_trail (h : r.Shaped sha3 p) (hp : p.length ≤ StemSize)
    (hkey : pr.key.length ≤ VerkleKeySize) (hpath : pr.path = r.full sha3)
    (hsib : pr.siblings = r.siblings) (hext : pr.extensionStems = r.extStems)
    (hcom : pr.commitments = []) (hproof : pr.proof = []) :
    pr.validateStructure = true ↔ r.siblings.length ≤ pr.key.length ∧
      pr.key.length + pr.value.length + 40 * (r.siblings.map List.length).sum
        ≤ MaxProofTotalBytes := by
  have hdepth : r.siblings.length ≤ 32 := by
    have := h.depth
    simp only [StemSize] at hp
    omega
  have hruns : (r.extStems.zip r.siblings).all (fun l =>
      decide (l.1.stemLen ≤ 0) || (decide (l.1.stemLen ≤ StemSize) && l.2.isEmpty)) = true := by
    rw [List.all_eq_true]
    intro l hl
    simpa using h.runs l hl
  have hvalid : r.siblings.all levelValid = true := List.all_eq_true.mpr h.valid
  have htotal : pr.totalBytes
      = pr.key.length + pr.value.length + 40 * (r.siblings.map List.length).sum := by
    simp [totalBytes, hcom, hproof, hsib, sum_sibling_bytes]
  have hkey32 : pr.key.length ≤ 32 := hkey
  simp only [validateStructure, hsib, hext, hpath, hruns, hvalid, hcom, htotal,
    h.path, h.exts, decide_true, Bool.true_or, Bool.or_true, Bool.and_true, List.isEmpty_nil,
    Bool.and_eq_true, decide_eq_true_eq]
  constructor
  · rintro ⟨⟨⟨-, -⟩, hlev⟩, hsize⟩
    exact ⟨hlev, hsize⟩
  · rintro ⟨hlev, hsize⟩
    exact ⟨⟨⟨hkey32, hdepth⟩, hlev⟩, hsize⟩

/-! ## The proofs are accepted -/

/-- The fields of a proof that come from a trail as they are. -/
structure VerkleProof.MadeFrom (sha3 : Bytes → Hash) (pr : VerkleProof) (r : Trail) : Prop where
  path : pr.path = r.full sha3
  siblings : pr.siblings = r.siblings
  extensionStems : pr.extensionStems = r.extStems
  commitments : pr.commitments = []
  proof : pr.proof = []

section
variable {P : Set (Bytes × Bytes)} {t : VerkleTree} {T : StemTree}

theorem LeafOk.exists_mem (h : LeafOk sha3 P n) (hlook : n.lookup key = some v) :
    ∃ k, (k, v) ∈ P := by
  unfold LeafNode.lookup at hlook
  split at hlook
  · obtain rfl := Option.some.inj hlook
    exact ⟨_, h.primary⟩
  · exact ⟨_, (h.suffix _ v hlook).2.2⟩

section
variable (h : Rep sha3 pdb P t T)
include h

theorem shaped_rep (key : Bytes) : (trailTo sha3 T key).Shaped sha3 (keyToStem sha3 key).toList :=
  shaped_trail ((stem_length _).symm ▸ h.wf) (stem_length _).le

theorem root_ne_zero (hcf : t.NoCollision sha3) (hne : T ≠ .empty) : t.root ≠ zeroHash := by
  rw [h.root]
  exact Radix.hash_ne_zero hcf.merkle h.covers hne

theorem descentTo_rep (hne : T ≠ .empty) (key : Bytes) : t.descentTo sha3 pdb key =
      { levels := (trailTo sha3 T key).siblings.length
        siblings :=
          ((trailTo sha3 T key).siblings.map List.length).sum
        depth := (trailTo sha3 T key).depth } := by
  rw [descentTo]
  rcases h.root_cases key with ⟨-, rfl⟩ | ⟨n, hn, hdesc⟩
  · exact absurd rfl hne
  · rw [hn]
    refine (descent_spec key hdesc).trans ?_
    simp

theorem path_trail (key : Bytes) : ∃ rest, (trailTo sha3 T key).full sha3 = t.root :: rest := by
  have hhead := head_trail sha3 key (p := (keyToStem sha3 key).toList)
    ((stem_length _).symm ▸ h.wf)
  rw [← h.root] at hhead
  exact List.head?_eq_some_iff.mp hhead

theorem levels_trail (key : Bytes) : verifyLevels sha3 (keyToStem sha3 key) 0
      ((trailTo sha3 T key).full sha3)
      (trailTo sha3 T key).siblings
      (trailTo sha3 T key).extStems
        = some (trailTo sha3 T key).depth := by
  have hlev := verifyLevels_trail sha3 key
    ((stem_length (keyToStem sha3 key)).symm ▸ h.wf) (List.nil_append _).symm
  simpa using hlev

variable {pr : VerkleProof}

theorem validateStructure_rep (hm : pr.MadeFrom sha3 (trailTo sha3 T pr.key))
    (hkey : pr.key.length ≤ VerkleKeySize) (hne : T ≠ .empty) :
    pr.validateStructure = true ↔ (t.descentTo sha3 pdb pr.key).levels ≤ pr.key.length ∧
      pr.key.length + pr.value.length + 40 * (t.descentTo sha3 pdb pr.key).siblings
        ≤ MaxProofTotalBytes := by
  rw [descentTo_rep h hne]
  exact validateStructure_trail (shaped_rep h _) (stem_length _).le hkey hm.path hm.siblings hm.extensionStems hm.commitments hm.proof

/-- Both branches of the verifier, for a proof made from a trail: the path
starts at the root and all levels recompute. -/
theorem levels_madeFrom (hm : pr.MadeFrom sha3 (trailTo sha3 T pr.key)) :
    (∃ rest, pr.path = t.root :: rest ∧ (pr.siblings = [] → rest = [])) ∧
      verifyLevels sha3 (keyToStem sha3 pr.key) 0 pr.path pr.siblings pr.extensionStems
        = some (trailTo sha3 T pr.key).depth := by
  obtain ⟨rest, hpath⟩ := path_trail h pr.key
  refine ⟨⟨rest, hm.path.trans hpath, fun hnil => ?_⟩, ?_⟩
  · have hlen := (shaped_rep h pr.key).path
    rw [hpath, ← hm.siblings, hnil] at hlen
    simpa using hlen
  · rw [hm.path, hm.siblings, hm.extensionStems]
    exact levels_trail h pr.key

theorem verifyExclusion_rep (hP : Separate sha3 P) (hm : pr.MadeFrom sha3 (trailTo sha3 T pr.key))
    (hev : pr.exclusionEvidence = (trailTo sha3 T pr.key).evidence)
    (hnone : (trailTo sha3 T pr.key).found = none) : pr.verifyExclusion sha3 t.root = true := by
  obtain ⟨⟨rest, hpath, hrest⟩, hlev⟩ := levels_madeFrom h hm
  obtain ⟨last, hlast, hfork⟩ := evidence_trail ((stem_length _).symm ▸ h.wf)
    (List.nil_append (keyToStem sha3 pr.key).toList).symm (fun q n hq => (h.ok q n hq).encodable hP) hev hnone
  rw [List.length_nil, Nat.zero_add] at hfork
  rw [← hm.path] at hlast
  rw [verifyExclusion, hlast]
  rw [hpath] at hlev
  simp only [hpath]
  by_cases hnil : pr.siblings = []
  · obtain rfl := hrest hnil
    rw [hpath] at hlast
    obtain rfl : t.root = last := by simpa using hlast
    rw [hnil] at hlev
    have hdepth : (0 : Nat) = (trailTo sha3 T pr.key).depth := by
      simpa [verifyLevels] using hlev
    rw [← hdepth] at hfork
    simp [hnil, hfork]
  · simp [hnil, hlev, hfork]

theorem verifyInclusion_rep (hP : Separate sha3 P) (hm : pr.MadeFrom sha3 (trailTo sha3 T pr.key))
    (hn : Radix.find T q = some n) (hfound : (trailTo sha3 T pr.key).found = some n)
    (hleaf : pr.inclusionLeaf = n.encode) (hval : n.lookup pr.key = some pr.value)
    (hne : pr.value ≠ []) : pr.verifyInclusion sha3 t.root = true := by
  obtain ⟨⟨rest, hpath, hrest⟩, hlev⟩ := levels_madeFrom h hm
  have hlast := last_trail_found hfound
  have henc := (h.ok q n hn).encodable hP
  have hnil : n.encode ≠ [] := by simp [LeafNode.encode, henc]
  have hcheck : pr.leafHashAndValueCheck sha3 (sha3 n.message) = true := by
    simp [leafHashAndValueCheck, hleaf, hnil, decodeLeafNode_encode henc, hval]
  rw [← hm.path] at hlast
  rw [verifyInclusion, if_neg hne, hlast]
  rw [hpath] at hlev
  simp only [hpath]
  by_cases hsib : pr.siblings = []
  · obtain rfl := hrest hsib
    rw [hpath] at hlast
    have hroot : t.root = sha3 n.message := by simpa using hlast
    rw [hroot]
    simp [hsib, hcheck]
  · simp [hsib, hcheck, hlev]

/-! ## Completeness -/

/-- The leaf `proveWalk` ends in lies in the tree at its own stem. -/
theorem stem_of_landing (hland : Radix.landing T (keyToStem sha3 key).toList = some (q, n)) :
    Radix.find T (keyToStem sha3 n.key).toList = some n := by
  have hfind := (Radix.find_of_landing h.wf hland).2
  have hq : (keyToStem sha3 n.key).toList = q := h.loc q n hfind
  rwa [hq]

/-- Where no leaf is found the key is absent, no deletion of it would be
stray, and the descent does not end at the full depth. -/
theorem found_none (hne : T ≠ .empty) (hnone : (trailTo sha3 T key).found = none) :
    t.get sha3 pdb key = .error .keyNotFound ∧ ¬ t.Stray sha3 pdb key ∧
      ¬ t.AtBottom sha3 pdb key := by
  rw [found_trail ((stem_length _).symm ▸ h.wf), stem_length] at hnone
  rw [VerkleTree.AtBottom, VerkleTree.Stray, descend_rep h, get_rep h, descentTo_rep h hne]
  cases hland : Radix.landing T (keyToStem sha3 key).toList with
  | none =>
    have hfind : Radix.find T (keyToStem sha3 key).toList = none := by
      by_contra hsome
      obtain ⟨n, hn⟩ := Option.ne_none_iff_exists'.mp hsome
      rw [Radix.landing_of_find hn] at hland
      cases hland
    simp [lookup, hfind, answer]
  | some l =>
    obtain ⟨q, n⟩ := l
    rw [hland] at hnone
    simp only [Option.bind_some, ite_eq_right_iff, reduceCtorEq, imp_false, not_or, not_not]
      at hnone
    obtain ⟨hlook, hdepth⟩ := hnone
    have hslot : n.suffixValues[keyToSuffix key]? = none := by
      unfold LeafNode.lookup at hlook
      split at hlook
      · cases hlook
      · exact hlook
    refine ⟨?_, ?_, fun hb => hdepth hb.2⟩
    swap
    · rintro ⟨n', hn', -, hs⟩
      obtain rfl : n = n' := by simpa using hn'
      exact hs hslot
    rw [lookup]
    cases hfind : Radix.find T (keyToStem sha3 key).toList with
    | none => rfl
    | some n' =>
      rw [Radix.landing_of_find hfind] at hland
      obtain ⟨-, rfl⟩ := Prod.mk.inj (Option.some.inj hland)
      rw [Option.bind_some, hlook]
      rfl

/-- Where a leaf is found for an absent key, its deletion would be stray or
the descent ends at the full depth. -/
theorem found_some_absent (hne : T ≠ .empty) (hfound : (trailTo sha3 T key).found = some n)
    (hget : lookup sha3 T key = none) : t.Stray sha3 pdb key ∨ t.AtBottom sha3 pdb key := by
  rw [found_trail ((stem_length _).symm ▸ h.wf), stem_length] at hfound
  obtain ⟨⟨q, n'⟩, hland, hif⟩ := Option.bind_eq_some_iff.mp hfound
  obtain ⟨hor, rfl⟩ : (n'.lookup key ≠ none ∨ _ = StemSize) ∧ n' = n := by
    simpa [Option.ite_none_right_eq_some] using hif
  rw [VerkleTree.AtBottom, VerkleTree.Stray, descend_rep h, descentTo_rep h hne, hland]
  rcases hor with hlook | hdepth
  · refine .inl ⟨n', rfl, fun hst => ?_, fun hslot => ?_⟩
    · have hfind := stem_of_landing h hland
      rw [hst] at hfind
      rw [lookup, hfind] at hget
      exact hlook hget
    · have hkey : n'.key = key := by
        by_contra hk
        rw [LeafNode.lookup, if_neg hk] at hlook
        exact hlook hslot
      have hfind := stem_of_landing h hland
      rw [hkey] at hfind
      rw [lookup, hfind] at hget
      exact hlook hget
  · exact .inr ⟨rfl, hdepth⟩

/-- A present key: the leaf is found, and no deletion of the key is
stray. -/
theorem found_some_present (hget : lookup sha3 T key = some v) :
    ∃ n, Radix.find T (keyToStem sha3 key).toList = some n ∧ n.lookup key = some v ∧
      (trailTo sha3 T key).found = some n ∧
      ¬ t.Stray sha3 pdb key := by
  obtain ⟨n, hfind, hlook⟩ := Option.bind_eq_some_iff.mp hget
  have hland := Radix.landing_of_find hfind
  refine ⟨n, hfind, hlook, ?_, ?_⟩
  · rw [found_trail ((stem_length _).symm ▸ h.wf), hland]
    simp [hlook]
  · rw [VerkleTree.Stray, descend_rep h, hland]
    have hst : keyToStem sha3 n.key = keyToStem sha3 key :=
      List.Vector.eq _ _ (h.loc _ n hfind)
    simp [hst]

/-- Where no leaf is found, only the number of levels can be wrong: the
siblings alone never reach the limit on the size. -/
theorem proves_of_found_none (hP : Separate sha3 P) (hcf : t.NoCollision sha3) (hne : T ≠ .empty)
    (hkey : key.length ≤ VerkleKeySize) (hfound : (trailTo sha3 T key).found = none) :
    t.Proves sha3 pdb key ↔ (t.descentTo sha3 pdb key).levels ≤ key.length := by
  have hprove := prove_rep h hne key
  simp only [hfound] at hprove
  rw [VerkleTree.Proves, (found_none h hne hfound).1]
  generalize t.prove sha3 pdb key = pr at hprove ⊢
  obtain rfl : pr.key = key := by rw [hprove]
  have hm : pr.MadeFrom sha3 (trailTo sha3 T pr.key) := by
    refine ⟨?_, ?_, ?_, ?_, ?_⟩ <;> rw [hprove]
    simp [Trail.full, hfound]
  have hex : pr.isExclusion = true := by rw [hprove]
  have hval : pr.value = [] := by rw [hprove]
  have hev : pr.exclusionEvidence
      = (trailTo sha3 T pr.key).evidence := by rw [hprove]
  have hsize : 40 * (t.descentTo sha3 pdb pr.key).siblings ≤ 40 * (256 * 31) := by
    have hsum := sum_siblings_le (shaped_rep h pr.key).valid
    have hdepth := (shaped_rep h pr.key).depth
    rw [stem_length] at hdepth
    rw [descentTo_rep h hne]
    simp only [StemSize] at hdepth ⊢
    omega
  have hvalid := validateStructure_rep h hm hkey hne
  rw [hval] at hvalid
  rw [verify, if_neg (fun hz => root_ne_zero h hcf hne hz.1), if_pos hex,
    verifyExclusion_rep h hP hm hev hfound, Bool.and_true, hvalid]
  simp only [VerkleKeySize] at hkey
  constructor
  · exact fun hl => hl.1.1
  · exact fun hl => ⟨⟨hl, by simp only [List.length_nil, MaxProofTotalBytes]; omega⟩, hex⟩

/-- For a present key the number of levels and the size can be wrong. -/
theorem proves_of_present (hP : Separate sha3 P)
    (hcf : t.NoCollision sha3) (hvals : ∀ e ∈ P, e.2 ≠ []) (hne : T ≠ .empty)
    (hkey : key.length ≤ VerkleKeySize) (hget : lookup sha3 T key = some v) :
    t.Proves sha3 pdb key ↔ (t.descentTo sha3 pdb key).levels ≤ key.length ∧
      key.length + v.length + 40 * (t.descentTo sha3 pdb key).siblings
        ≤ MaxProofTotalBytes := by
  obtain ⟨n, hfind, hlook, hfound, -⟩ := found_some_present h hget
  have hprove := prove_rep h hne key
  simp only [hfound] at hprove
  rw [VerkleTree.Proves, get_rep h, hget]
  generalize t.prove sha3 pdb key = pr at hprove ⊢
  obtain rfl : pr.key = key := by rw [hprove]
  have hm : pr.MadeFrom sha3 (trailTo sha3 T pr.key) := by
    refine ⟨?_, ?_, ?_, ?_, ?_⟩ <;> rw [hprove]
    simp [Trail.full, hfound]
  have hin : pr.isExclusion = false := by rw [hprove]
  have hval : pr.value = v := by rw [hprove]; simp [LeafNode.provenValue, hlook]
  have hleaf : pr.inclusionLeaf = n.encode := by rw [hprove]
  have hv : pr.value ≠ [] := by
    obtain ⟨k, hk⟩ := (h.ok _ n hfind).exists_mem hlook
    rw [hval]
    exact hvals _ hk
  rw [verify, if_neg (fun hz => root_ne_zero h hcf hne hz.1), hin,
    if_neg Bool.false_ne_true,
    verifyInclusion_rep h hP hm hfind hfound hleaf (hval ▸ hlook) hv, Bool.and_true,
    validateStructure_rep h hm hkey hne, hval]
  simp [answer]

end

theorem rootNode_of_rep_empty (h : Rep sha3 pdb P t .empty) : t.rootNode = none := by
  rcases h.root_cases [] with ⟨hn, -⟩ | ⟨n, -, hdesc⟩
  · exact hn
  · cases hdesc.node

theorem proves_empty (h : Rep sha3 pdb P t .empty)
    (hkey : key.length ≤ VerkleKeySize) : t.Proves sha3 pdb key := by
  have hget : t.get sha3 pdb key = .error .keyNotFound := get_rep h key
  have hprove : t.prove sha3 pdb key = { key := key, isExclusion := true } := by
    rw [prove, rootNode_of_rep_empty h]
  have hroot : t.root = zeroHash := h.root
  have hbytes : key.length ≤ MaxProofTotalBytes := hkey.trans (by decide)
  rw [VerkleTree.Proves, hget, hprove, hroot]
  simp only [VerkleKeySize] at hkey
  simp [verify, validateStructure, verifyExclusion,
    totalBytes, hkey, hbytes]

end

/-! ## Completeness of a run -/

/-- After a run with separate entries the proof for a key is right, unless
it has more levels than the key has bytes, is too large, or was made from a
leaf of another stem. -/
theorem prove_complete {ops : List TreeOp} (h : SeparateRun sha3 pdb ops)
    (hvals : ∀ key value, TreeOp.put key value ∈ ops → value ≠ []) {k : Bytes}
    (hk : k.length ≤ VerkleKeySize) : (newVerkleTree.exec sha3 pdb ops).Proves sha3 pdb k ↔
      ((newVerkleTree.exec sha3 pdb ops).descentTo sha3 pdb k).levels ≤ k.length ∧
      (∀ v, (newVerkleTree.exec sha3 pdb ops).get sha3 pdb k = .ok v →
        k.length + v.length
            + 40 * ((newVerkleTree.exec sha3 pdb ops).descentTo sha3 pdb k).siblings
          ≤ MaxProofTotalBytes) ∧
      ¬ (newVerkleTree.exec sha3 pdb ops).Stray sha3 pdb k ∧
      ¬ ((newVerkleTree.exec sha3 pdb ops).get sha3 pdb k = .error .keyNotFound ∧
        (newVerkleTree.exec sha3 pdb ops).AtBottom sha3 pdb k) := by
  have hrep := h.rep
  have hP := h.separate _ List.prefix_rfl
  have hcf := h.noCollision
  have hv : ∀ e ∈ entries (contents ops), e.2 ≠ [] :=
    fun e he => hvals _ _ (put_mem_of_contents he)
  generalize newVerkleTree.exec sha3 pdb ops = t at hrep hcf ⊢
  generalize exec sha3 .empty ops = T at hrep
  by_cases hne : T = .empty
  · subst hne
    have hland := descend_rep hrep k
    have hstray : ¬ t.Stray sha3 pdb k := by
      rw [VerkleTree.Stray, hland]
      rintro ⟨n, hn, -⟩
      cases hn
    have hbot : ¬ t.AtBottom sha3 pdb k := by
      rw [VerkleTree.AtBottom, hland]
      exact fun hb => Bool.false_ne_true hb.1
    have hlevels : t.descentTo sha3 pdb k = { levels := 0, siblings := 0, depth := 0 } := by
      rw [descentTo, rootNode_of_rep_empty hrep, descent_none]
    have hget : t.get sha3 pdb k = .error .keyNotFound := get_rep hrep k
    refine iff_of_true (proves_empty hrep hk) ⟨?_, ?_, hstray, fun hb => hbot hb.2⟩
    · rw [hlevels]; exact Nat.zero_le _
    · rw [hget]; intro v hv; cases hv
  cases hget : lookup sha3 T k with
  | some v =>
    obtain ⟨-, -, -, -, hstray⟩ := found_some_present hrep hget
    rw [proves_of_present hrep hP hcf hv hne hk hget, get_rep hrep, hget]
    simp [answer, hstray]
  | none =>
    have hgetk : t.get sha3 pdb k = .error .keyNotFound := by rw [get_rep hrep, hget]; rfl
    rw [hgetk]
    cases hfound : (trailTo sha3 T k).found with
    | none =>
      obtain ⟨-, hstray, hbot⟩ := found_none hrep hne hfound
      rw [proves_of_found_none hrep hP hcf hne hk hfound]
      simp [hstray, hbot]
    | some n =>
      have hbad := found_some_absent hrep hne hfound hget
      have hnot : ¬ t.Proves sha3 pdb k := by
        rintro ⟨-, hex⟩
        rw [hgetk] at hex
        have hprove := prove_rep hrep hne k
        simp only [hfound] at hprove
        rw [hprove] at hex
        cases hex
      refine iff_of_false hnot ?_
      rintro ⟨-, -, hstray, hbot⟩
      exact hbad.elim hstray fun hb => hbot ⟨rfl, hb⟩

theorem prove_complete_twoStems : twoStemsTree.Proves twoStemsSha3 ∅ (zeroKey 2) := by
  refine (prove_complete twoStems_soundRun.separateRun ?_ (by decide)).mpr
    ⟨by decide +kernel, ?_, by decide +kernel, by decide +kernel⟩
  · intro key value h
    simp only [twoStemsOps, List.mem_cons, TreeOp.put.injEq, List.not_mem_nil, or_false] at h
    rcases h with ⟨-, rfl⟩ | ⟨-, rfl⟩ | ⟨-, rfl⟩ <;> decide
  · have hget : twoStemsTree.get twoStemsSha3 ∅ (zeroKey 2) = .ok [8] := by decide +kernel
    intro v hv
    obtain rfl : [8] = v := by simpa using hget.symm.trans hv
    decide +kernel

/-- The proof for an absent key shows the value of another: the leaf has an
entry in the suffix slot of the key, but another stem. -/
theorem prove_complete_otherStem : ¬ ∀ (sha3 : Bytes → Hash) (ops : List TreeOp) (k : Bytes),
      (∀ op ∈ ops, 0 < op.key.length ∧ op.key.length ≤ VerkleKeySize) →
      (∀ key value, TreeOp.put key value ∈ ops → value ≠ []) →
      0 < k.length ∧ k.length ≤ VerkleKeySize →
      StemsApart sha3 (k :: opKeys ops) →
      (newVerkleTree.exec sha3 ∅ ops).NoCollision sha3 →
      (newVerkleTree.exec sha3 ∅ ops).Proves sha3 ∅ k := by
  intro h
  have hp := h sharedStemSha3 [.put (zeroKey 1) [7], .put (zeroKey 2) [8]]
    (1 :: (zeroKey 2).tail) (by decide) ?_ (by decide) (by decide +kernel) (by decide +kernel)
  · revert hp
    decide +kernel
  · intro key value h
    simp only [List.mem_cons, TreeOp.put.injEq, List.not_mem_nil, or_false] at h
    rcases h with ⟨-, rfl⟩ | ⟨-, rfl⟩ <;> decide

end

end Qau
