import Qau.VerkleNode

/-!
# The node codec

`Encode` and `Decode…Node` of the three node kinds, and the magic byte
that `encodeNodeWithMagic` puts in front. The result of the module is the
round trip `decodeNode_encode`: what `storeNode` writes is read back as
the same node, except that an extension comes back without its child
loaded. A leaf too large to encode is written as the empty string, which
`decodeNode` refuses.
-/

namespace Qau

open Std.ExtTreeMap TreeNode

/-! ## Encoding -/

/-- A four-byte length followed by the bytes. -/
def lenPrefixed (b : Bytes) : Bytes := bigEndian 4 b.length ++ b

def encodeSuffix (e : UInt8 × Bytes) : Bytes := e.1 :: lenPrefixed e.2

/-- The size checks of `LeafNode.Encode`. -/
def LeafNode.encodable (n : LeafNode) : Bool :=
  decide (n.key.length ≤ maxLeafKeySize) && decide (n.value.length ≤ maxLeafValueSize)
    && n.suffixValues.toList.all fun e => decide (e.2.length ≤ maxLeafValueSize)

/-- `LeafNode.Encode`; the nil it returns for an oversized entry is `[]`. -/
def LeafNode.encode (n : LeafNode) : Bytes :=
  if n.encodable then
    NodeTypeLeaf :: (lenPrefixed n.key ++ lenPrefixed n.value
      ++ bigEndian 4 n.suffixValues.toList.length
      ++ n.suffixValues.toList.flatMap encodeSuffix)
  else []

section
variable (sha3 : Bytes → Hash)

/-- `Encode`. An extension whose child is not loaded writes 32 zero bytes
where the child's hash belongs. -/
def TreeNode.encode : TreeNode → Bytes
  | .leaf n => n.encode
  | .internal children => NodeTypeInternal :: slots.flatMap fun i => (children i).toList
  | .extension stem stemLen child =>
    NodeTypeExtension :: (bigEndian 4 stemLen ++ stem.toList ++ (child.hash sha3).toList)
  | .extensionRef stem stemLen _ =>
    NodeTypeExtension :: (bigEndian 4 stemLen ++ stem.toList ++ zeroHash.toList)

def encodeNodeWithMagic (n : TreeNode) : Bytes :=
  match n.encode sha3 with
  | [] => []
  | raw => VerkleEncodingMagic :: raw

end

/-! ## Decoding -/

/-- The suffix loop of `DecodeLeafNode`; a repeated suffix overwrites. -/
def decodeSuffixes : Nat → Bytes → Fmap UInt8 Bytes → Option (Fmap UInt8 Bytes)
  | 0, _, m => some m
  | k + 1, data, m =>
    if data.length < 5 then none
    else
      let sValLen := ofBigEndian ((data.drop 1).take 4)
      let rest := data.drop 5
      if maxLeafValueSize < sValLen then none
      else if rest.length < sValLen then none
      else decodeSuffixes k (rest.drop sValLen)
        (m.insert (data.headD 0) (rest.take sValLen))

/-- The part of `DecodeLeafNode` after the value: too few bytes for a
count, or a count out of range, leaves the suffix map empty. -/
def decodeSuffixBlock (data : Bytes) : Option (Fmap UInt8 Bytes) :=
  if data.length < 4 then some ∅
  else
    let suffixCount := ofBigEndian (data.take 4)
    if 0 < suffixCount ∧ suffixCount ≤ 256 then decodeSuffixes suffixCount (data.drop 4) ∅
    else some ∅

def decodeLeafNode (data : Bytes) : Option LeafNode :=
  if data.length < 10 ∨ data.headD 0 ≠ NodeTypeLeaf then none
  else
    let keyLen := ofBigEndian ((data.drop 1).take 4)
    let rest := data.drop 5
    if maxLeafKeySize < keyLen then none
    else if rest.length < keyLen + 4 then none
    else
      let valueLen := ofBigEndian ((rest.drop keyLen).take 4)
      let rest' := (rest.drop keyLen).drop 4
      if maxLeafValueSize < valueLen then none
      else if rest'.length < valueLen then none
      else (decodeSuffixBlock (rest'.drop valueLen)).map fun m =>
        { key := rest.take keyLen, value := rest'.take valueLen, suffixValues := m }

def decodeInternalNode (data : Bytes) : Option (UInt8 → Hash) :=
  if data.length < 1 + BranchingFactor * 32 ∨ data.headD 0 ≠ NodeTypeInternal then none
  else some fun i => copyInto 32 (((data.drop 1).drop (32 * i.toNat)).take 32)

def decodeExtensionNode (data : Bytes) : Option TreeNode :=
  if data.length < 1 + 4 + StemSize + 32 ∨ data.headD 0 ≠ NodeTypeExtension then none
  else
    let stemLen := ofBigEndian ((data.drop 1).take 4)
    if stemLen = 0 ∨ StemSize < stemLen then none
    else some (.extensionRef (copyInto 31 ((data.drop 5).take 31)) stemLen
      (copyInto 32 ((data.drop 36).take 32)))

/-- `decodeNode`: with the magic byte or in the older format without it. -/
def decodeNode (data : Bytes) : Option TreeNode :=
  match data with
  | [] => none
  | b :: rest =>
    let payload := if b = VerkleEncodingMagic then rest else data
    match payload.head? with
    | none => none
    | some ty =>
      if ty = NodeTypeLeaf then (decodeLeafNode payload).map .leaf
      else if ty = NodeTypeInternal then (decodeInternalNode payload).map .internal
      else if ty = NodeTypeExtension then decodeExtensionNode payload
      else none

/-! ## Round trips -/

theorem ofBigEndian_take_lenPrefixed {b : Bytes} (rest : Bytes) (h : b.length < 256 ^ 4) :
    ofBigEndian ((lenPrefixed b ++ rest).take 4) = b.length := by
  rw [lenPrefixed, List.append_assoc, List.take_left' (bigEndian_length 4 _),
    ofBigEndian_bigEndian_of_lt h]

theorem drop_lenPrefixed (b rest : Bytes) : (lenPrefixed b ++ rest).drop 4 = b ++ rest := by
  rw [lenPrefixed, List.append_assoc, List.drop_left' (bigEndian_length 4 _)]

@[simp] theorem lenPrefixed_length (b : Bytes) : (lenPrefixed b).length = 4 + b.length := by
  simp [lenPrefixed]

/-- The suffix loop reads back encoded entries, inserting them in order. -/
theorem decodeSuffixes_encode (es : List (UInt8 × Bytes))
    (hlen : ∀ e ∈ es, e.2.length ≤ maxLeafValueSize) (m : Fmap UInt8 Bytes) :
    decodeSuffixes es.length (es.flatMap encodeSuffix) m =
      some (es.foldl (fun m e => m.insert e.1 e.2) m) := by
  induction es generalizing m with
  | nil => rfl
  | cons e es ih =>
    have he : e.2.length ≤ maxLeafValueSize := hlen e (List.mem_cons_self ..)
    have hlt : e.2.length < 256 ^ 4 := lt_of_le_of_lt he (by decide)
    have hread := ofBigEndian_take_lenPrefixed (es.flatMap encodeSuffix) hlt
    have hdrop := drop_lenPrefixed e.2 (es.flatMap encodeSuffix)
    simp only [List.length_cons, List.flatMap_cons, encodeSuffix, List.cons_append,
      decodeSuffixes, List.drop_succ_cons, List.drop_zero, hread, hdrop, List.length_append, lenPrefixed_length]
    rw [if_neg (by omega), if_neg (by omega), if_neg (by omega),
      List.drop_left' rfl, List.take_left' rfl]
    exact ih (fun e' h => hlen e' (List.mem_cons_of_mem _ h)) _

theorem LeafNode.encodable_iff {n : LeafNode} :
    n.encodable = true ↔ n.key.length ≤ maxLeafKeySize ∧ n.value.length ≤ maxLeafValueSize
      ∧ ∀ e ∈ n.suffixValues.toList, e.2.length ≤ maxLeafValueSize := by
  simp [encodable, and_assoc]

theorem suffixValues_length_le (m : Fmap UInt8 Bytes) : m.toList.length ≤ 256 := by
  have hnodup : (m.toList.map Prod.fst).Nodup := by
    rw [List.Nodup, List.pairwise_map]
    refine List.Pairwise.imp ?_ (distinct_keys_toList (t := m))
    intro a b hab heq
    exact hab (Std.compare_eq_iff_eq.mpr heq)
  have hcard := List.Nodup.length_le_card hnodup
  rw [List.length_map] at hcard
  rwa [← FinEnum.card_eq_fintypeCard] at hcard

theorem decodeSuffixBlock_encode {m : Fmap UInt8 Bytes}
    (hlen : ∀ e ∈ m.toList, e.2.length ≤ maxLeafValueSize) :
    decodeSuffixBlock (bigEndian 4 m.toList.length ++ m.toList.flatMap encodeSuffix) = some m := by
  have hle := suffixValues_length_le m
  have hcount : ofBigEndian ((bigEndian 4 m.toList.length ++ m.toList.flatMap encodeSuffix).take 4)
      = m.toList.length := by
    rw [List.take_left' (bigEndian_length 4 _)]
    exact ofBigEndian_bigEndian_of_lt (by omega)
  simp only [decodeSuffixBlock, hcount, List.length_append, bigEndian_length,
    List.drop_left' (bigEndian_length 4 _)]
  rw [if_neg (by omega)]
  by_cases hzero : m.toList.length = 0
  · rw [if_neg (by omega)]
    rw [List.length_eq_zero_iff, toList_eq_nil_iff] at hzero
    rw [hzero]
  · rw [if_pos ⟨by omega, hle⟩, decodeSuffixes_encode _ hlen, Fmap.foldl_insert_toList]

theorem decodeLeafNode_encode {n : LeafNode} (h : n.encodable = true) :
    decodeLeafNode n.encode = some n := by
  obtain ⟨hkey, hval, hsuf⟩ := LeafNode.encodable_iff.mp h
  have hk4 : n.key.length < 256 ^ 4 := lt_of_le_of_lt hkey (by decide)
  have hv4 : n.value.length < 256 ^ 4 := lt_of_le_of_lt hval (by decide)
  let tail := bigEndian 4 n.suffixValues.toList.length
    ++ n.suffixValues.toList.flatMap encodeSuffix
  have henc : n.encode = NodeTypeLeaf :: (lenPrefixed n.key ++ (lenPrefixed n.value ++ tail)) := by
    simp [LeafNode.encode, h, tail]
  have htail : 4 ≤ tail.length := by simp [tail]
  rw [henc]
  simp only [decodeLeafNode, List.length_cons, List.length_append, lenPrefixed_length,
    List.headD_cons, List.drop_succ_cons, List.drop_zero, drop_lenPrefixed,
    ofBigEndian_take_lenPrefixed _ hk4, ofBigEndian_take_lenPrefixed _ hv4,
    List.drop_left' rfl, List.take_left' rfl]
  rw [if_neg (by simp only [ne_eq, not_true_eq_false, or_false]; omega), if_neg (by omega),
    if_neg (by omega), if_neg (by omega), if_neg (by omega)]
  rw [decodeSuffixBlock_encode hsuf]
  rfl

theorem slots_length : slots.length = 256 := by simp [slots]

theorem slots_getElem (i : UInt8) (h : i.toNat < slots.length) : slots[i.toNat] = i := by
  simp [slots]

theorem take_drop_children (children : UInt8 → Hash) (i : UInt8) :
    ((slots.flatMap fun i => (children i).toList).drop (32 * i.toNat)).take 32
      = (children i).toList := by
  have hi : i.toNat < slots.length := by rw [slots_length]; exact i.toNat_lt
  rw [take_drop_flatMap 32 _ (fun j => by simp) slots i.toNat hi, slots_getElem]

theorem internalMessage_injective : Function.Injective internalMessage := by
  intro c c' h
  have htail : (slots.flatMap fun i => (c i).toList) = slots.flatMap fun i => (c' i).toList :=
    (List.cons.inj h).2
  funext i
  apply List.Vector.eq
  rw [← take_drop_children c, htail, take_drop_children c']

theorem extensionMessage_inj {s s' : Stem} {c c' : Hash}
    (h : extensionMessage s c = extensionMessage s' c') : s = s' ∧ c = c' := by
  have htail := (List.cons.inj h).2
  obtain ⟨hs, hc⟩ := List.append_inj htail (by simp)
  exact ⟨List.Vector.eq _ _ hs, List.Vector.eq _ _ hc⟩

section
variable (sha3 : Bytes → Hash)

/-- What a stored node reads back as: an extension loses its child. -/
def TreeNode.unload : TreeNode → TreeNode
  | .extension stem stemLen child => .extensionRef stem stemLen (child.hash sha3)
  | n => n

@[simp] theorem TreeNode.hash_unload (n : TreeNode) : (n.unload sha3).hash sha3 = n.hash sha3 := by
  cases n <;> rfl

/-- The nodes `storeNode` can write so that `decodeNode` reads them back. -/
def TreeNode.Encodable : TreeNode → Prop
  | .leaf n => n.encodable = true
  | .internal _ => True
  | .extension _ stemLen _ => 0 < stemLen ∧ stemLen ≤ StemSize
  | .extensionRef _ _ _ => False

theorem decodeInternalNode_encode (children : UInt8 → Hash) :
    decodeInternalNode ((internal children).encode sha3) = some children := by
  have hlen : (slots.flatMap fun i => (children i).toList).length = 256 * 32 := by
    rw [length_flatMap_blocks (fun i => (children i).toList_length), slots_length]
  simp only [encode, decodeInternalNode, List.length_cons, hlen, List.headD_cons,
    List.drop_succ_cons, List.drop_zero, take_drop_children, copyInto_toList]
  rw [if_neg (by decide)]

theorem decodeExtensionNode_encode (stem : Stem) {stemLen : Nat} (child : TreeNode)
    (hpos : 0 < stemLen) (hle : stemLen ≤ StemSize) :
    decodeExtensionNode ((extension stem stemLen child).encode sha3)
      = some (.extensionRef stem stemLen (child.hash sha3)) := by
  have hlen : ofBigEndian (bigEndian 4 stemLen) = stemLen :=
    ofBigEndian_bigEndian_of_lt (by simp only [StemSize] at hle; omega)
  have hstem : ((bigEndian 4 stemLen ++ stem.toList ++ (child.hash sha3).toList).drop 4).take 31
      = stem.toList := by
    rw [List.append_assoc, List.drop_left' (bigEndian_length 4 _), List.take_left' (by simp)]
  have hchild : ((bigEndian 4 stemLen ++ stem.toList ++ (child.hash sha3).toList).drop 35).take 32
      = (child.hash sha3).toList := by
    rw [List.drop_left' (by simp)]
    exact List.take_of_length_le (by simp)
  have hread : (bigEndian 4 stemLen ++ stem.toList ++ (child.hash sha3).toList).take 4
      = bigEndian 4 stemLen := by
    rw [List.append_assoc, List.take_left' (bigEndian_length 4 _)]
  simp only [encode, decodeExtensionNode, List.drop_succ_cons, List.drop_zero, hread,
    hstem, hchild, hlen, copyInto_toList]
  rw [if_neg (by simp [StemSize]), if_neg (by omega)]

theorem decodeNode_magic_leaf (tail : Bytes) :
    decodeNode (VerkleEncodingMagic :: NodeTypeLeaf :: tail)
      = (decodeLeafNode (NodeTypeLeaf :: tail)).map .leaf := rfl

theorem decodeNode_magic_internal (tail : Bytes) :
    decodeNode (VerkleEncodingMagic :: NodeTypeInternal :: tail)
      = (decodeInternalNode (NodeTypeInternal :: tail)).map .internal := rfl

theorem decodeNode_magic_extension (tail : Bytes) :
    decodeNode (VerkleEncodingMagic :: NodeTypeExtension :: tail)
      = decodeExtensionNode (NodeTypeExtension :: tail) := rfl

/-- What `storeNode` writes reads back as the node, extensions unloaded. -/
theorem decodeNode_encode {n : TreeNode} (h : n.Encodable) :
    decodeNode (encodeNodeWithMagic sha3 n) = some (n.unload sha3) := by
  cases n with
  | leaf n =>
    have hdec := decodeLeafNode_encode (n := n) h
    simp only [LeafNode.encode, show n.encodable = true from h, if_true] at hdec
    simp only [encodeNodeWithMagic, encode, LeafNode.encode,
      show n.encodable = true from h, if_true]
    rw [decodeNode_magic_leaf, hdec]
    rfl
  | internal children =>
    have hdec := decodeInternalNode_encode sha3 children
    simp only [encode] at hdec
    simp only [encodeNodeWithMagic, encode]
    rw [decodeNode_magic_internal, hdec]
    rfl
  | extension stem stemLen child =>
    have hdec := decodeExtensionNode_encode sha3 stem child h.1 h.2
    simp only [encode] at hdec
    simp only [encodeNodeWithMagic, encode]
    rw [decodeNode_magic_extension, hdec]
    rfl
  | extensionRef => exact h.elim

theorem encodeNodeWithMagic_ne_nil {n : TreeNode} (h : n.Encodable) :
    encodeNodeWithMagic sha3 n ≠ [] := by
  intro hnil
  have hdec := decodeNode_encode sha3 h
  rw [hnil] at hdec
  cases hdec

end

end Qau
