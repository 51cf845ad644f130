import Qau.Bytes
import Qau.Fmap

/-!
# Verkle tree nodes: hashing, key schedule and the node codec

The node layer of `qaudb/trie/verkle.go`. A node's memoised `hash` field
is always the value its constructor or `recomputeHash` last wrote, so the
model drops the field and computes `TreeNode.hash` from the content. An
extension that was just decoded knows only the hash of its child (`Child`
is nil); one built or descended through in memory holds the child node.
The two are separate constructors, because `Encode` treats them
differently: without a loaded child it writes the zero hash.

SHA3-256 comes from outside the repository; it is the parameter `sha3`.
-/

namespace Qau

/-- `types.Hash`. -/
abbrev Hash := ByteArr 32

/-- The hash that repeats one byte, for examples. -/
def hashOf (b : UInt8) : Hash := List.Vector.replicate 32 b

/-- A node stem, `[StemSize]byte`. -/
abbrev Stem := ByteArr 31

def zeroHash : Hash := zeroArr 32

abbrev StemSize : Nat := 31
abbrev VerkleKeySize : Nat := 32
abbrev BranchingFactor : Nat := 256
abbrev maxVerkleRecursionDepth : Nat := 256
abbrev maxLeafKeySize : Nat := 2 ^ 20
abbrev maxLeafValueSize : Nat := 2 ^ 24
abbrev NodeTypeLeaf : UInt8 := 1
abbrev NodeTypeInternal : UInt8 := 2
abbrev NodeTypeExtension : UInt8 := 3
abbrev VerkleEncodingMagic : UInt8 := 0x56

/-! ## Nodes and their hashes -/

/-- A leaf: the primary entry, and the values of the other keys of the
same stem by their last byte. -/
structure LeafNode where
  key : Bytes
  value : Bytes
  suffixValues : Fmap UInt8 Bytes
deriving DecidableEq

/-- `extension` holds its child in memory, `extensionRef` only the child's
hash, as `DecodeExtensionNode` leaves it. -/
inductive TreeNode where
  | leaf (n : LeafNode)
  | internal (children : UInt8 → Hash)
  | extension (stem : Stem) (stemLen : Nat) (child : TreeNode)
  | extensionRef (stem : Stem) (stemLen : Nat) (childHash : Hash)

/-- The 256 slot indices, in the order the loops of the source visit them. -/
def slots : List UInt8 := (List.range BranchingFactor).map UInt8.ofNat

/-- One suffix entry as `recomputeHash` feeds it to the hasher. -/
def suffixMessage (e : UInt8 × Bytes) : Bytes := e.1 :: e.2

/-- What `recomputeHash` hashes for a leaf: key, value and suffix entries
follow each other with no length between them. -/
def LeafNode.message (n : LeafNode) : Bytes :=
  0x00 :: (n.key ++ n.value ++ n.suffixValues.toList.flatMap suffixMessage)

/-- What `HashInternal` hashes. -/
def internalMessage (children : UInt8 → Hash) : Bytes :=
  0x01 :: slots.flatMap fun i => (children i).toList

/-- What `HashExtension` hashes: the whole stem array, not its length. -/
def extensionMessage (stem : Stem) (child : Hash) : Bytes :=
  0x02 :: (stem.toList ++ child.toList)

section
variable (sha3 : Bytes → Hash)

def TreeNode.hash : TreeNode → Hash
  | .leaf n => sha3 n.message
  | .internal children => sha3 (internalMessage children)
  | .extension stem _ child => sha3 (extensionMessage stem child.hash)
  | .extensionRef stem _ childHash => sha3 (extensionMessage stem childHash)

/-- The message whose digest is the node's hash. -/
def TreeNode.message : TreeNode → Bytes
  | .leaf n => n.message
  | .internal children => internalMessage children
  | .extension stem _ child => extensionMessage stem (child.hash sha3)
  | .extensionRef stem _ childHash => extensionMessage stem childHash

theorem TreeNode.hash_eq (n : TreeNode) : n.hash sha3 = sha3 (n.message sha3) := by
  cases n <;> rfl

/-! ## Key schedule -/

/-- `"verkle_key_v1\x00"`. -/
def stemDomain : Bytes :=
  [0x76, 0x65, 0x72, 0x6b, 0x6c, 0x65, 0x5f, 0x6b, 0x65, 0x79, 0x5f, 0x76, 0x31, 0x00]

/-- What `keyToStem` hashes for a key that is not 32 bytes long. -/
def stemMessage (key : Bytes) : Bytes :=
  stemDomain ++ key ++ bigEndian 4 key.length

def keyToStem (key : Bytes) : Stem :=
  if key.length = VerkleKeySize then copyInto 31 (key.take StemSize)
  else copyInto 31 ((sha3 (stemMessage key)).toList.take StemSize)

def keyToSuffix (key : Bytes) : UInt8 :=
  if key.length = VerkleKeySize then (key[StemSize]?).getD 0 else 0xFF

theorem keyToStem_canonical {key : Bytes} (h : key.length = 32) :
    (keyToStem sha3 key).toList = key.take 31 := by
  have hle : 31 ≤ (key.take StemSize).length := by simp [h]
  rw [keyToStem, if_pos h, copyInto_toList_of_le_length hle]
  exact List.take_take.trans (by simp)

theorem canonical_key_eq {key : Bytes} (h : key.length = 32) :
    key = (keyToStem sha3 key).toList ++ [keyToSuffix key] := by
  have hlt : 31 < key.length := by omega
  have hsuf : keyToSuffix key = key[31] := by
    simp [keyToSuffix, h]
  rw [keyToStem_canonical sha3 h, hsuf, List.take_append_getElem hlt]
  exact (List.take_of_length_le (by omega)).symm

theorem keyToStem_stem_append (stem : Stem) (suffix : UInt8) :
    keyToStem sha3 (stem.toList ++ [suffix]) = stem := by
  apply List.Vector.eq
  rw [keyToStem_canonical sha3 (by simp)]
  exact List.take_left' (by simp)

theorem keyToSuffix_stem_append (stem : Stem) (suffix : UInt8) :
    keyToSuffix (stem.toList ++ [suffix]) = suffix := by
  simp [keyToSuffix]

end

end Qau
