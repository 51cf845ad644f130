import Qau.VerkleRun

/-!
# The Verkle tree as a map

What `Get` answers after a run of calls. `walk` follows the radix tree, so
`Get` reads the leaf at the key's stem (`get_rep`); a `Put` changes the
answer for its own key only (`lookup_put`), a `Delete` too, unless it is a
stray one (`lookup_delete`).

A run goes wrong in four ways, which `TreeOp.Sound` rules out one by one:
a value that the store silently drops; a short key and a 32-byte key with
one stem, which compete for the slot `0xFF`; two leaves with one hash
message, since the message does not say where the key ends; and a `Delete`
of an absent key that ends in the leaf of another stem, whose entry in the
same suffix slot it removes.
-/

namespace Qau

open Function StemTree

variable {k key : Bytes} {m : Bytes → Option Bytes} {P : Set (Bytes × Bytes)} {value : Bytes}
  {t : VerkleTree} {T : StemTree} {ops : List TreeOp}

section
variable (sha3 : Bytes → Hash)

/-! ## The leaf a deletion ends in -/

/-- The leaf in which the recursion of `delete` ends. Other than `walk` it
does not compare the leaf's stem. -/
def VerkleTree.descend (pdb : Kv) (t : VerkleTree) :
    Nat → Option TreeNode → Stem → Nat → Option LeafNode
  | 0, _, _, _ => none
  | _, none, _, _ => none
  | fuel + 1, some node, stem, depth =>
    match node with
    | .leaf n => some n
    | .internal children =>
      match stem.toList[depth]? with
      | none => none
      | some idx => t.descend pdb fuel (t.getNode pdb (children idx)) stem (depth + 1)
    | .extension s stemLen _ | .extensionRef s stemLen _ =>
      if stemLen = 0 ∨ StemSize < stemLen then none
      else if s.toList.take stemLen <+: stem.toList.drop depth then
        t.descend pdb fuel (t.extensionChild pdb node) stem (depth + stemLen)
      else none

/-- A `Delete` that would take an entry of another stem. -/
def VerkleTree.Stray (pdb : Kv) (t : VerkleTree) (key : Bytes) : Prop :=
  ∃ n ∈ t.descend pdb treeFuel t.rootNode (keyToStem sha3 key) 0,
    keyToStem sha3 n.key ≠ keyToStem sha3 key ∧ n.suffixValues[keyToSuffix key]? ≠ none

/-! ## What a run must keep to -/

/-- SHA3-256 is free of collisions on the first 31 bytes of its output, for
the keys whose stems are hashes. -/
def StemsApart (K : List Bytes) : Prop :=
  ∀ a ∈ K, ∀ b ∈ K, a.length ≠ VerkleKeySize → b.length ≠ VerkleKeySize →
    keyToStem sha3 a = keyToStem sha3 b → a = b

/-- No present key of 32 bytes shares its stem with `key` when that is
shorter, nor the other way round. -/
def Unmixed (m : Bytes → Option Bytes) (key : Bytes) : Prop :=
  ∀ a, m a ≠ none → keyToStem sha3 a = keyToStem sha3 key →
    (a.length = VerkleKeySize ↔ key.length = VerkleKeySize)

/-- The condition on a call, in the state `t` with the entries `m`. -/
def TreeOp.Sound (pdb : Kv) (t : VerkleTree) (m : Bytes → Option Bytes) : TreeOp → Prop
  | .put key value => Unmixed sha3 m key ∧ value.length ≤ maxLeafValueSize ∧
      ∀ a v, m a = some v → a ≠ key →
        Framed (a, v) (key, value) ∧ Framed (key, value) (a, v)
  | .delete key => Unmixed sha3 m key ∧ ¬ t.Stray sha3 pdb key

/-- The keys a run names. -/
def opKeys (ops : List TreeOp) : List Bytes := ops.map TreeOp.key

/-- A run from the empty tree: the keys are in range, every call is sound in
the state it meets, and SHA3-256 has no collision in it. -/
structure SoundRun (pdb : Kv) (ops : List TreeOp) : Prop where
  keys : ∀ op ∈ ops, 0 < op.key.length ∧ op.key.length ≤ VerkleKeySize
  stems : StemsApart sha3 (opKeys ops)
  sound : ∀ pre op suf, ops = pre ++ op :: suf →
    op.Sound sha3 pdb (newVerkleTree.exec sha3 pdb pre) (contents pre)
  noCollision : (newVerkleTree.exec sha3 pdb ops).NoCollision sha3

end

/-- `Get`'s answer for a value that is there or not. -/
def answer : Option Bytes → Except TrieErr Bytes
  | some v => .ok v
  | none => .error .keyNotFound

section
variable {sha3 : Bytes → Hash} {pdb : Kv}

/-! ## Reading -/

theorem walk_none (t : VerkleTree) (fuel : Nat) (stem : Stem) (depth : Nat) :
    t.walk sha3 pdb fuel none stem depth = none := by
  cases fuel <;> rfl

theorem descend_none (t : VerkleTree) (fuel : Nat) (stem : Stem) (depth : Nat) :
    t.descend pdb fuel none stem depth = none := by
  cases fuel <;> rfl

section
variable {t : VerkleTree} {n : TreeNode} {s pre p : Bytes} {u T : StemTree} {stem : Stem} {fuel : Nat}

theorem walk_extension (h : AtRun sha3 pdb t stem s u n pre p) (fuel : Nat) :
    t.walk sha3 pdb (fuel + 1) (some n) stem pre.length =
      if s <+: stem.toList.drop pre.length then
        t.walk sha3 pdb fuel (t.extensionChild pdb n) stem (pre.length + s.length)
      else none := by
  have hm := h.node
  obtain ⟨i, hidx⟩ := h.getElem?
  cases hm <;> simp only [VerkleTree.walk, hidx, if_neg h.guard, h.take]

theorem descend_extension (h : AtRun sha3 pdb t stem s u n pre p) (fuel : Nat) :
    t.descend pdb (fuel + 1) (some n) stem pre.length =
      if s <+: stem.toList.drop pre.length then
        t.descend pdb fuel (t.extensionChild pdb n) stem (pre.length + s.length)
      else none := by
  have hm := h.node
  cases hm <;> simp only [VerkleTree.descend, if_neg h.guard, h.take]

/-- A leaf has the stem of the descent exactly when its path is what is left
of it. -/
theorem keyToStem_eq_iff {r : Bytes} {n : LeafNode} (hloc : Located sha3 pre (.leaf r n))
    (hstem : stem.toList = pre ++ p) : keyToStem sha3 n.key = stem ↔ r = p := by
  have hn : (keyToStem sha3 n.key).toList = pre ++ r := hloc r n (by simp [Radix.find])
  constructor
  · intro h
    rw [h, hstem] at hn
    exact (List.append_cancel_left hn).symm
  · rintro rfl
    exact List.Vector.eq _ _ (hn.trans hstem.symm)

theorem walk_spec (h : Descends sha3 pdb t stem T fuel n pre p) (hloc : Located sha3 pre T) :
    t.walk sha3 pdb fuel (some n) stem pre.length = (Radix.find T p).map TreeNode.leaf := by
  induction h using Descends.rule with
  | leaf r n fuel pre p h =>
    cases p with
    | nil =>
      obtain rfl : r = [] := List.length_eq_zero_iff.mp h.wf
      have hidx : stem.toList[pre.length]? = none := by rw [h.stem]; simp
      simp [VerkleTree.walk, hidx, Radix.find]
    | cons i p =>
      have hidx : stem.toList[pre.length]? = some i := by
        rw [h.stem]; exact getElem?_length_append ..
      have hiff := keyToStem_eq_iff hloc h.stem
      by_cases hr : r = i :: p
      · simp [VerkleTree.walk, hidx, Radix.find, hiff.mpr hr, hr]
      · simp [VerkleTree.walk, hidx, Radix.find, hiff, hr]
  | slot c fuel pre i p h hidx hci hget =>
    simp only [VerkleTree.walk, hidx, Radix.find, hget, walk_none]
    rw [hci]
    rfl
  | child c fuel pre i p h h' hidx hci hget ih =>
    simp only [VerkleTree.walk, hidx, Radix.find, hget]
    simpa using ih (hloc.node i)
  | run s u fuel n pre q h h' hrun hpre ih =>
    rw [walk_extension hrun, if_pos hpre, hrun.child]
    simpa [Radix.find] using ih hloc.run
  | leave s u fuel n pre p h hrun hpre hstrip =>
    rw [walk_extension hrun, if_neg hpre]
    simp [Radix.find, hstrip]

theorem descend_spec (h : Descends sha3 pdb t stem T fuel n pre p) :
    t.descend pdb fuel (some n) stem pre.length = (Radix.landing T p).map Prod.snd := by
  induction h using Descends.rule with
  | leaf r n fuel pre p h => rfl
  | slot c fuel pre i p h hidx hci hget =>
    simp only [VerkleTree.descend, hidx, Radix.landing, hget, descend_none]
    rw [hci]
    rfl
  | child c fuel pre i p h h' hidx hci hget ih =>
    simp only [VerkleTree.descend, hidx, Radix.landing, hget]
    simpa [comp_def] using ih
  | run s u fuel n pre q h h' hrun hpre ih =>
    rw [descend_extension hrun, if_pos hpre, hrun.child]
    simpa [Radix.landing, comp_def] using ih
  | leave s u fuel n pre p h hrun hpre hstrip =>
    rw [descend_extension hrun, if_neg hpre]
    simp [Radix.landing, hstrip]

end

variable (sha3) in
/-- The value a radix tree has for a key. -/
def StemTree.lookup (T : StemTree) (key : Bytes) : Option Bytes :=
  (Radix.find T (keyToStem sha3 key).toList).bind (LeafNode.lookup · key)

theorem get_rep (h : Rep sha3 pdb P t T) (key : Bytes) :
    t.get sha3 pdb key = answer (lookup sha3 T key) := by
  have hwalk : t.walk sha3 pdb treeFuel t.rootNode (keyToStem sha3 key) 0
      = (Radix.find T (keyToStem sha3 key).toList).map TreeNode.leaf := by
    rcases h.root_cases key with ⟨hn, rfl⟩ | ⟨n, hn, hdesc⟩
    · rw [hn]
      exact walk_none ..
    · rw [hn]
      exact walk_spec hdesc h.loc
  rw [VerkleTree.get, hwalk, lookup]
  cases Radix.find T (keyToStem sha3 key).toList with
  | none => rfl
  | some n =>
    simp only [Option.map_some, Option.bind_some]
    rfl

/-- The leaf a stray deletion would change, in a tree that stands for `T`. -/
theorem descend_rep (h : Rep sha3 pdb P t T) (key : Bytes) :
    t.descend pdb treeFuel t.rootNode (keyToStem sha3 key) 0
      = (Radix.landing T (keyToStem sha3 key).toList).map Prod.snd := by
  rcases h.root_cases key with ⟨hn, rfl⟩ | ⟨n, hn, hdesc⟩
  · rw [hn]
    exact descend_none ..
  · rw [hn]
    exact descend_spec hdesc

/-! ## What one call changes -/

theorem lookup_put (hwf : Radix.WF StemSize T)
    (hk : k ≠ key → keyToStem sha3 k = keyToStem sha3 key →
      k.length = VerkleKeySize ∧ key.length = VerkleKeySize) : lookup sha3 (put sha3 T key value) k
      = if k = key then some value else lookup sha3 T k := by
  have hfind := Radix.find_upsert (f := putLeaf key value) hwf (stem_length (keyToStem sha3 key))
  simp only [lookup, put]
  by_cases hst : keyToStem sha3 k = keyToStem sha3 key
  · rw [hst, (hfind _ _).mpr (.inl ⟨rfl, rfl⟩), Option.bind_some]
    have hsuf : k ≠ key → keyToSuffix key ≠ keyToSuffix k := by
      intro hne hs
      refine hne ?_
      rw [canonical_key_eq sha3 (hk hne hst).1, canonical_key_eq sha3 (hk hne hst).2, hst, hs]
    cases hf : Radix.find T (keyToStem sha3 key).toList with
    | none =>
      by_cases hkk : k = key
      · simp [putLeaf, newLeafNode, LeafNode.lookup, hkk]
      · simp [putLeaf, newLeafNode, LeafNode.lookup, hkk, Ne.symm hkk]
    | some n =>
      simp only [putLeaf, LeafNode.insertEntry, Option.bind_some]
      by_cases hn : n.key = key
      · by_cases hkk : k = key
        · simp [LeafNode.lookup, hn, hkk]
        · simp [LeafNode.lookup, hn, hkk, Ne.symm hkk]
      · by_cases hkk : k = key
        · simp [LeafNode.lookup, hn, hkk]
        · simp only [LeafNode.lookup, if_neg hn, if_neg hkk]
          rw [Fmap.getElem?_insert_ne _ _ (hsuf hkk)]
  · have hkk : k ≠ key := fun h => hst (h ▸ rfl)
    have hne : (keyToStem sha3 k).toList ≠ (keyToStem sha3 key).toList :=
      fun h => hst (List.Vector.eq _ _ h)
    rw [if_neg hkk]
    congr 1
    refine Option.ext fun v => ?_
    rw [hfind]
    simp [hne]

/-- What the leaf of a deleted key answers for the other keys of its stem. -/
theorem lookup_deleteEntry {n : LeafNode} (hkk : k ≠ key) (hk : k.length = VerkleKeySize)
    (hkey : key.length = VerkleKeySize) (hstk : keyToStem sha3 k = keyToStem sha3 key)
    (hst : keyToStem sha3 n.key = keyToStem sha3 key) :
    (n.deleteEntry sha3 key).bind (LeafNode.lookup · k) = n.lookup k := by
  have hsuf : keyToSuffix key ≠ keyToSuffix k := by
    intro hs
    refine hkk ?_
    rw [canonical_key_eq sha3 hk, canonical_key_eq sha3 hkey, hstk, hs]
  unfold LeafNode.deleteEntry
  split
  · next heq =>
    have hnk : n.key ≠ k := fun h => hkk (h ▸ heq)
    split
    · next hnil =>
      rw [Std.ExtTreeMap.toList_eq_nil_iff] at hnil
      simp [LeafNode.lookup, hnk, hnil]
    · next s v rest htoList =>
      have hmem : (s, v) ∈ n.suffixValues.toList := by rw [htoList]; exact List.mem_cons_self ..
      have hget := Std.ExtTreeMap.mem_toList_iff_getElem?_eq_some.mp hmem
      have hprom : n.promotedKey sha3 s = (keyToStem sha3 key).toList ++ [s] := by
        rw [LeafNode.promotedKey, if_pos (heq ▸ hkey.ge), ← keyToStem_canonical sha3
          (heq ▸ hkey), hst]
      simp only [LeafNode.lookup, Option.bind_some, if_neg hnk, hprom]
      by_cases hs : s = keyToSuffix k
      · rw [if_pos (by rw [hs, ← hstk, ← canonical_key_eq sha3 hk]), ← hs, hget]
      · have hne : (keyToStem sha3 key).toList ++ [s] ≠ k := by
          intro h
          rw [← h, keyToSuffix_stem_append] at hs
          exact hs rfl
        rw [if_neg hne, Fmap.getElem?_erase_ne _ hs]
  · simp only [LeafNode.lookup, Option.bind_some]
    rw [Fmap.getElem?_erase_ne _ hsuf]

/-- A `Delete` that is not a stray one leaves the other keys alone. -/
theorem lookup_delete (hwf : Radix.WF StemSize T) (hloc : Located sha3 [] T) (hkk : k ≠ key)
    (hk : keyToStem sha3 k = keyToStem sha3 key →
      k.length = VerkleKeySize ∧ key.length = VerkleKeySize)
    (hstray : ∀ q n, Radix.landing T (keyToStem sha3 key).toList = some (q, n) →
      keyToStem sha3 n.key ≠ keyToStem sha3 key → n.suffixValues[keyToSuffix key]? = none) :
    lookup sha3 (delete sha3 T key) k = lookup sha3 T k := by
  have hfind := Radix.find_remove (g := (LeafNode.deleteEntry sha3 · key)) hwf
    (stem_length (keyToStem sha3 key))
  simp only [lookup, delete]
  by_cases hland : ∃ n, Radix.landing T (keyToStem sha3 key).toList
      = some ((keyToStem sha3 k).toList, n)
  · obtain ⟨n, hn⟩ := hland
    have hf := (Radix.find_of_landing hwf hn).2
    have hstn : keyToStem sha3 n.key = keyToStem sha3 k := List.Vector.eq _ _ (hloc _ n hf)
    have hres : Radix.find (Radix.remove (LeafNode.deleteEntry sha3 · key) T
        (keyToStem sha3 key).toList) (keyToStem sha3 k).toList = n.deleteEntry sha3 key := by
      refine Option.ext fun v => ?_
      rw [hfind]
      constructor
      · rintro (⟨a, ha, hdel⟩ | ⟨hnot, -⟩)
        · rw [hn] at ha
          obtain ⟨-, rfl⟩ := Prod.mk.inj (Option.some.inj ha)
          exact hdel
        · exact absurd hn (hnot n)
      · exact fun hdel => .inl ⟨n, hn, hdel⟩
    rw [hres, hf, Option.bind_some]
    by_cases hst : keyToStem sha3 n.key = keyToStem sha3 key
    · have hstk := hstn.symm.trans hst
      exact lookup_deleteEntry hkk (hk hstk).1 (hk hstk).2 hstk hst
    · have hnk : n.key ≠ key := fun h => hst (h ▸ rfl)
      have herase : n.suffixValues.erase (keyToSuffix key) = n.suffixValues :=
        Fmap.erase_of_getElem?_eq_none (hstray _ n hn hst)
      simp [LeafNode.deleteEntry, hnk, herase]
  · congr 1
    refine Option.ext fun v => ?_
    rw [hfind]
    constructor
    · rintro (⟨a, ha, -⟩ | ⟨-, h⟩)
      · exact absurd ⟨a, ha⟩ hland
      · exact h
    · exact fun h => .inr ⟨fun a ha => hland ⟨a, ha⟩, h⟩

theorem lookup_sound (hloc : Located sha3 [] T) (hok : LeavesOk sha3 (entries m) T) {v : Bytes}
    (hk : ∀ a, m a ≠ none → a ≠ k → keyToStem sha3 a = keyToStem sha3 k →
      a.length = VerkleKeySize ∧ k.length = VerkleKeySize) (h : lookup sha3 T k = some v) :
    m k = some v := by
  obtain ⟨n, hf, hl⟩ := Option.bind_eq_some_iff.mp h
  have hn := hok _ n hf
  have hst : keyToStem sha3 n.key = keyToStem sha3 k := List.Vector.eq _ _ (hloc _ n hf)
  unfold LeafNode.lookup at hl
  split at hl
  · next heq =>
    obtain rfl := Option.some.inj hl
    exact heq ▸ hn.primary
  · next hne =>
    have hpres : m n.key ≠ none := by
      have hprim : m n.key = some n.value := hn.primary
      rw [hprim]
      exact Option.some_ne_none _
    obtain ⟨-, -, hmem⟩ := hn.suffix _ v hl
    have hmem : m ((keyToStem sha3 n.key).toList ++ [keyToSuffix k]) = some v := hmem
    rwa [hst, ← canonical_key_eq sha3 (hk _ hpres hne hst).2] at hmem

/-! ## Sound runs -/

theorem contents_ne_none (h : contents ops k ≠ none) : k ∈ opKeys ops := by
  induction ops using List.reverseRecOn with
  | nil => exact absurd rfl h
  | append_singleton ops op ih =>
    rw [contents_append] at h
    rw [opKeys, List.map_append]
    by_cases hk : k = op.key
    · exact List.mem_append_right _ (List.mem_singleton.mpr hk)
    · rw [TreeOp.apply_of_ne hk] at h
      exact List.mem_append_left _ (ih h)

theorem length_of_shared_stem {K : List Bytes} (hK : StemsApart sha3 K)
    (hm : ∀ a, m a ≠ none → a ∈ K) (hk : k ∈ K) (hmix : Unmixed sha3 m k) {a : Bytes}
    (ha : m a ≠ none) (hne : a ≠ k) (hst : keyToStem sha3 a = keyToStem sha3 k) :
    a.length = VerkleKeySize ∧ k.length = VerkleKeySize := by
  have hiff := hmix a ha hst
  by_cases h32 : a.length = VerkleKeySize
  · exact ⟨h32, hiff.mp h32⟩
  · exact absurd (hK a (hm a ha) k hk h32 (fun h => h32 (hiff.mpr h)) hst) hne

theorem Separate.mono {P' : Set (Bytes × Bytes)} (h : Separate sha3 P) (hsub : P' ⊆ P) :
    Separate sha3 P' where
  len e he := h.len e (hsub he)
  size e he := h.size e (hsub he)
  stems e he e' he' := h.stems e (hsub he) e' (hsub he')
  frames e he e' he' := h.frames e (hsub he) e' (hsub he')

theorem separate_put (h : Separate sha3 (entries m))
    (hlen : 0 < key.length ∧ key.length ≤ VerkleKeySize) (hsize : value.length ≤ maxLeafValueSize)
    (hstems : ∀ a, m a ≠ none → a ≠ key → keyToStem sha3 a = keyToStem sha3 key →
      a.length = VerkleKeySize ∧ key.length = VerkleKeySize)
    (hframes : ∀ a v, m a = some v → a ≠ key →
      Framed (a, v) (key, value) ∧ Framed (key, value) (a, v)) :
    Separate sha3 (entries ((TreeOp.put key value).apply m)) := by
  have hcases : ∀ e ∈ entries ((TreeOp.put key value).apply m),
      e = (key, value) ∨ (e ∈ entries m ∧ e.1 ≠ key) := by
    rintro ⟨a, v⟩ he
    by_cases ha : a = key
    · subst ha
      simp [entries, TreeOp.apply] at he
      exact .inl (by rw [he])
    · refine .inr ⟨?_, ha⟩
      simpa [entries, TreeOp.apply, update_of_ne ha] using he
  have hpres : ∀ {e : Bytes × Bytes}, e ∈ entries m → m e.1 ≠ none := by
    intro e he
    rw [show m e.1 = some e.2 from he]
    exact Option.some_ne_none _
  refine ⟨fun e he => ?_, fun e he => ?_, fun e he e' he' hne hst => ?_,
    fun e he e' he' => ?_⟩
  · rcases hcases e he with rfl | ⟨he, -⟩
    · exact hlen
    · exact h.len e he
  · rcases hcases e he with rfl | ⟨he, -⟩
    · exact hsize
    · exact h.size e he
  · rcases hcases e he with rfl | ⟨he, hek⟩ <;> rcases hcases e' he' with rfl | ⟨he', hek'⟩
    · exact absurd rfl hne
    · exact (hstems _ (hpres he') hek' hst.symm).symm
    · exact hstems _ (hpres he) hek hst
    · exact h.stems e he e' he' hne hst
  · rcases hcases e he with rfl | ⟨he, hek⟩ <;> rcases hcases e' he' with rfl | ⟨he', hek'⟩
    · exact Framed.of_length_eq rfl
    · exact (hframes e'.1 e'.2 he' hek').2
    · exact (hframes e.1 e.2 he hek).1
    · exact h.frames e he e' he'

theorem SoundRun.prefix_left {ops' : List TreeOp} (h : SoundRun sha3 pdb (ops ++ ops')) :
    SoundRun sha3 pdb ops where
  keys op hop := h.keys op (List.mem_append_left _ hop)
  stems a ha b hb := by
    have hsub : opKeys ops ⊆ opKeys (ops ++ ops') :=
      List.map_subset _ (List.subset_append_left ..)
    exact h.stems a (hsub ha) b (hsub hb)
  sound pre op suf heq := h.sound pre op (suf ++ ops') (by rw [heq]; simp)
  noCollision := by
    have hcf := h.noCollision
    rw [exec_append] at hcf
    exact hcf.mono exec_hashed

theorem SoundRun.last {op : TreeOp} (h : SoundRun sha3 pdb (ops ++ [op])) :
    op.Sound sha3 pdb (newVerkleTree.exec sha3 pdb ops) (contents ops) ∧
      ∀ a, contents ops a ≠ none → a ≠ op.key → keyToStem sha3 a = keyToStem sha3 op.key →
        a.length = VerkleKeySize ∧ op.key.length = VerkleKeySize := by
  have hs := h.sound ops op [] rfl
  refine ⟨hs, fun a ha hne hst => ?_⟩
  have hsub : opKeys ops ⊆ opKeys (ops ++ [op]) := List.map_subset _ (List.subset_append_left ..)
  have hmix : Unmixed sha3 (contents ops) op.key := by
    cases op with
    | put key value => exact hs.1
    | delete key => exact hs.1
  exact length_of_shared_stem h.stems (fun a ha => hsub (contents_ne_none ha))
    (by simp [opKeys]) hmix ha hne hst

section
variable {ops : List TreeOp} (h : SoundRun sha3 pdb ops)
include h

theorem SoundRun.separate : Separate sha3 (entries (contents ops)) := by
  induction ops using List.reverseRecOn with
  | nil => exact ⟨fun e he => (nomatch he), fun e he => (nomatch he), fun e he => (nomatch he),
      fun e he => (nomatch he)⟩
  | append_singleton ops op ih =>
    have hsep := ih h.prefix_left
    obtain ⟨hs, hst⟩ := h.last
    rw [contents_append]
    cases op with
    | put key value =>
      exact separate_put hsep (h.keys _ (List.mem_append_right _ (List.mem_singleton.mpr rfl)))
        hs.2.1 hst hs.2.2
    | delete key =>
      refine hsep.mono fun e he => ?_
      by_cases hk : e.1 = key
      · simp [entries, TreeOp.apply, hk] at he
      · exact (TreeOp.apply_of_ne hk).symm.trans he

theorem SoundRun.separateRun : SeparateRun sha3 pdb ops := by
  refine ⟨h.keys, fun pre hpre => ?_, h.noCollision⟩
  obtain ⟨suf, rfl⟩ := hpre
  exact h.prefix_left.separate

theorem SoundRun.rep : Rep sha3 pdb (entries (contents ops)) (newVerkleTree.exec sha3 pdb ops)
      (exec sha3 .empty ops) := h.separateRun.rep

theorem SoundRun.lookup_complete : ∀ {k v : Bytes}, contents ops k = some v →
      lookup sha3 (exec sha3 .empty ops) k = some v := by
  induction ops using List.reverseRecOn with
  | nil => intro k v hk; cases hk
  | append_singleton ops op ih =>
    intro k v hk
    have hrep := h.prefix_left.rep
    obtain ⟨hs, hst⟩ := h.last
    rw [contents_append] at hk
    rw [stemExec_append]
    cases op with
    | put key value =>
      dsimp only [TreeOp.key] at hst
      by_cases hkk : k = key
      · subst hkk
        have hv : value = v := by simpa [TreeOp.apply] using hk
        rw [step, lookup_put hrep.wf (fun hne => absurd rfl hne), if_pos rfl, hv]
      · rw [TreeOp.apply, update_of_ne hkk] at hk
        rw [step, lookup_put hrep.wf (fun hne => hst k (by simp [hk]) hne),
          if_neg hkk]
        exact ih h.prefix_left hk
    | delete key =>
      have hkk : k ≠ key := by
        rintro rfl
        simp [TreeOp.apply] at hk
      rw [TreeOp.apply, update_of_ne hkk] at hk
      rw [step, lookup_delete hrep.wf hrep.loc hkk
        (hst k (by simp [hk]) hkk) ?_]
      · exact ih h.prefix_left hk
      · intro q n hland hne
        by_contra hslot
        refine hs.2 ⟨n, ?_, hne, hslot⟩
        rw [descend_rep hrep, hland]
        rfl

end

/-! ## Keys of one length

With keys of one length nothing is mixed and no message is ambiguous; what
is left are the size limit and stray deletions. -/

theorem forall_split {α : Type*} {l : List α} {p : List α → α → Prop}
    (h : ∀ i : Fin l.length, p (l.take i) (l.get i)) :
    ∀ pre a suf, l = pre ++ a :: suf → p pre a := by
  rintro pre a suf rfl
  have hi := h ⟨pre.length, by simp⟩
  simpa using hi

instance (sha3 : Bytes → Hash) (pdb : Kv) (t : VerkleTree) (key : Bytes) :
    Decidable (t.Stray sha3 pdb key) :=
  inferInstanceAs (Decidable (∃ n ∈ t.descend pdb treeFuel t.rootNode (keyToStem sha3 key) 0,
    keyToStem sha3 n.key ≠ keyToStem sha3 key ∧ n.suffixValues[keyToSuffix key]? ≠ none))

/-- The value of a `Put` fits, and a `Delete` meets no entry of another stem. -/
def TreeOp.Tidy (sha3 : Bytes → Hash) (pdb : Kv) (t : VerkleTree) : TreeOp → Prop
  | .put _ value => value.length ≤ maxLeafValueSize
  | .delete key => ¬ t.Stray sha3 pdb key

instance (sha3 : Bytes → Hash) (pdb : Kv) (t : VerkleTree) :
    (op : TreeOp) → Decidable (op.Tidy sha3 pdb t)
  | .put _ value => inferInstanceAs (Decidable (value.length ≤ maxLeafValueSize))
  | .delete key => inferInstanceAs (Decidable (¬ t.Stray sha3 pdb key))

theorem soundRun_of_length {l : Nat} (hl : 0 < l ∧ l ≤ VerkleKeySize)
    (hlen : ∀ op ∈ ops, op.key.length = l) (hstems : StemsApart sha3 (opKeys ops))
    (htidy : ∀ i : Fin ops.length,
      (ops.get i).Tidy sha3 pdb (newVerkleTree.exec sha3 pdb (ops.take i)))
    (hcf : (newVerkleTree.exec sha3 pdb ops).NoCollision sha3) : SoundRun sha3 pdb ops where
  keys op hop := by rw [hlen op hop]; exact hl
  stems := hstems
  noCollision := hcf
  sound pre op suf heq := by
    have hop : op ∈ ops := by simp [heq]
    have hop' := forall_split (p := fun pre op =>
      TreeOp.Tidy sha3 pdb (newVerkleTree.exec sha3 pdb pre) op) htidy pre op suf heq
    have hpre : ∀ {a : Bytes}, contents pre a ≠ none → a.length = op.key.length := by
      intro a ha
      obtain ⟨o, ho, rfl⟩ := List.mem_map.mp (contents_ne_none ha)
      rw [hlen o (by simp [heq, ho]), hlen op hop]
    have hmix : Unmixed sha3 (contents pre) op.key := by
      intro a ha _
      rw [hpre ha]
    cases op with
    | put key value =>
      refine ⟨hmix, hop', fun a v ha _ => ?_⟩
      have : a.length = key.length := hpre (by simp [ha])
      exact ⟨Framed.of_length_eq this, Framed.of_length_eq this.symm⟩
    | delete key => exact ⟨hmix, hop'⟩

end

/-! ## SHA3-256 on fixed inputs -/

instance (sha3 : Bytes → Hash) (L : List Bytes) :
    Decidable (CollisionFree sha3 zeroHash {m | m ∈ L}) :=
  -- `==` compares the long messages of internal nodes without nesting
  decidable_of_iff ((∀ m ∈ L, ∀ m' ∈ L, sha3 m = sha3 m' → (m == m') = true) ∧
      ∀ m ∈ L, sha3 m ≠ zeroHash)
    ⟨fun h => ⟨fun hm hm' heq => eq_of_beq (h.1 _ hm _ hm' heq), fun hm => h.2 _ hm⟩,
      fun h => ⟨fun _ hm _ hm' heq => beq_iff_eq.mpr (h.inj hm hm' heq), fun _ hm => h.ne_zero hm⟩⟩

instance (sha3 : Bytes → Hash) (t : VerkleTree) : Decidable (t.NoCollision sha3) :=
  inferInstanceAs (Decidable (CollisionFree sha3 zeroHash {m | m ∈ t.hashed}))

instance (sha3 : Bytes → Hash) (K : List Bytes) : Decidable (StemsApart sha3 K) :=
  inferInstanceAs (Decidable (∀ a ∈ K, ∀ b ∈ K, a.length ≠ VerkleKeySize →
    b.length ≠ VerkleKeySize → keyToStem sha3 a = keyToStem sha3 b → a = b))

/-- A hash from its 64 hexadecimal digits. -/
def digestOf (n : Nat) : Hash := copyInto 32 (bigEndian 32 n)

/-- SHA3-256 by table, for the messages of a fixed run; `other` is the
digest of the one message that is not listed. -/
def tableSha3 (table : List (Bytes × Nat)) (other : Nat) (m : Bytes) : Hash :=
  digestOf ((table.lookup m).getD other)

/-- The keys `00..00 s`, 32 bytes long. -/
def zeroKey (s : UInt8) : Bytes := List.replicate 31 0 ++ [s]

/-- SHA3-256 on the leaf messages with the value 7 for `zeroKey 1`, the
value 8 for `zeroKey 2`, or both. -/
def sharedStemSha3 : Bytes → Hash := tableSha3
  [(0 :: zeroKey 1 ++ [7], 0xcb3c90f96e67f7eafa9f2cc9992a7f68022ad22cef00dd3f427bf36cb5540ed3),
    (0 :: zeroKey 2 ++ [8], 0x47c041ec4a5ee77ee91c2111d0189beaf987128d9b13c0d154e3f9232789b3df),
    (0 :: zeroKey 1 ++ [7, 2, 8],
      0xc3167a50de9442f08f0553be98422834e21f400b50090461faab406adaa29795)]
  0xcc3545370029db9d21292d6015a49b513103ec6b8d23bb54e61c0d0c0c5cf1e4

/-- Two keys of one stem, of which the primary one goes again. -/
def sharedStemOps : List TreeOp :=
  [.put (zeroKey 1) [7], .put (zeroKey 2) [8], .delete (zeroKey 1)]

theorem sharedStem_soundRun : SoundRun sharedStemSha3 ∅ sharedStemOps := by
  exact soundRun_of_length (l := 32) (by decide) (by decide) (by decide +kernel) (by decide +kernel)
    (by decide +kernel)

/-! ## The map -/

/-- After a sound run `Get` answers every key as the map of the last `Put`s
does. -/
theorem get_exec {sha3 : Bytes → Hash} {pdb : Kv} {ops : List TreeOp} (h : SoundRun sha3 pdb ops)
    {k : Bytes} (hstems : StemsApart sha3 (k :: opKeys ops)) (hmix : Unmixed sha3 (contents ops) k)
    : (newVerkleTree.exec sha3 pdb ops).get sha3 pdb k = answer (contents ops k) := by
  have hrep := h.rep
  rw [get_rep hrep]
  congr 1
  refine Option.ext fun v => ⟨fun hl => ?_, fun hc => h.lookup_complete hc⟩
  refine lookup_sound hrep.loc hrep.ok (fun a ha hne hst => ?_) hl
  exact length_of_shared_stem hstems
    (fun a ha => List.mem_cons_of_mem _ (contents_ne_none ha)) (List.mem_cons_self ..) hmix
    ha hne hst

theorem get_exec_sharedStem :
    (newVerkleTree.exec sharedStemSha3 ∅ sharedStemOps).get sharedStemSha3 ∅ (zeroKey 2)
      = answer (contents sharedStemOps (zeroKey 2)) := by
  refine get_exec sharedStem_soundRun (by decide +kernel) fun a ha _ => ?_
  have hall : ∀ a ∈ opKeys sharedStemOps, (a.length = 32 ↔ (zeroKey 2).length = 32) := by decide
  exact hall a (contents_ne_none ha)

/-- SHA3-256 on the messages of `sharedMessageOps`; the unlisted one is that
of the internal node at the root. -/
def sharedMessageSha3 : Bytes → Hash := tableSha3
  [(stemMessage [1], 0x861a494f843fc4309a7effd74b21b647b9787370e6d505661ecd8484033f4b95),
    (stemMessage [1, 2], 0x25f8caae46f89d3bbbc56f09cdf20b5eb1163e7e5f1f0e371b846c7ee97bf43b),
    ([0, 1, 2, 3], 0x33bad5430899ed6f8beaf3e732b2a2cad1d40b7c9de0cfcdc7e0bc0756803a10)]
  0x24c95a157e2e25ee0058f9ea728a6808ac60509d610d4eb6276e2fd6fb706b3f

/-- Two entries with one leaf message: key, then value, is `01 02 03` in
both. -/
def sharedMessageOps : List TreeOp := [.put [1] [2, 3], .put [1, 2] [3]]

set_option maxRecDepth 100000 in
/-- Without the conditions of `SoundRun` an entry can be lost, though
SHA3-256 has no collision in the run. -/
theorem get_exec_sharedMessage : ¬ ∀ (sha3 : Bytes → Hash) (ops : List TreeOp) (k : Bytes),
      (∀ op ∈ ops, 0 < op.key.length ∧ op.key.length ≤ VerkleKeySize) →
      StemsApart sha3 (k :: opKeys ops) →
      (newVerkleTree.exec sha3 ∅ ops).NoCollision sha3 →
      (newVerkleTree.exec sha3 ∅ ops).get sha3 ∅ k = answer (contents ops k) := by
  intro h
  have hget := h sharedMessageSha3 sharedMessageOps [1] (by decide) (by decide +kernel)
    (by decide +kernel)
  revert hget
  decide +kernel

end Qau
