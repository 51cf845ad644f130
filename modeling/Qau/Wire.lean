import Qau.Bytes

/-!
# The wire format

Model of `encoding/wire.go`: base-128 varints, length-prefixed byte
strings, field tags and the skipping of fields a decoder does not know.
A read buffer is its unread bytes together with the counter
`totalAllocated`; a write buffer is the byte string written so far.

Each reader has two lemmas. The `_encode` lemma says that the reader
returns what the writer wrote and leaves the rest of the input. The
`_sound` lemma says that whatever a reader accepts is what the writer
would have written for the value it returned: the decoder takes no second
spelling of a varint, so a byte string has at most one reading. The first
needs that the bytes counted so far and the unread ones fit the budget.
-/

namespace Qau

variable {data r s : Bytes} {i n v w wt : Nat} {m p k num : Nat}

/-! ## Integers as minimal byte strings -/

/-- `big.Int.Bytes` of a non-negative integer: big-endian, no leading zero. -/
def bigBytes (n : Nat) : Bytes :=
  if n = 0 then [] else bigEndian (n.log2 / 8 + 1) n

theorem lt_pow_log2 (n : Nat) : n < 256 ^ (n.log2 / 8 + 1) := by
  calc n < 2 ^ (n.log2 + 1) := Nat.lt_log2_self
    _ ≤ 2 ^ (8 * (n.log2 / 8 + 1)) := Nat.pow_le_pow_right (by decide) (by omega)
    _ = 256 ^ (n.log2 / 8 + 1) := by rw [Nat.pow_mul]

@[simp] theorem ofBigEndian_bigBytes (n : Nat) : ofBigEndian (bigBytes n) = n := by
  unfold bigBytes
  split
  · rename_i h
    rw [h]
    rfl
  · exact ofBigEndian_bigEndian_of_lt (lt_pow_log2 n)

theorem bigBytes_inj (h : bigBytes m = bigBytes n) : m = n := by
  rw [← ofBigEndian_bigBytes m, h, ofBigEndian_bigBytes]

@[simp] theorem bigBytes_eq_nil : bigBytes n = [] ↔ n = 0 := by
  constructor
  · intro h
    rw [← ofBigEndian_bigBytes n, h]
    rfl
  · rintro rfl
    rfl

theorem bigBytes_length_le (h : n < 256 ^ w) : (bigBytes n).length ≤ w := by
  unfold bigBytes
  split
  · exact Nat.zero_le w
  · rename_i hn
    rw [bigEndian_length]
    have hlog : n.log2 < 8 * w := by
      rw [Nat.log2_lt hn, Nat.pow_mul]
      exact h
    omega

theorem ofBigEndian_lt (b : Bytes) : ofBigEndian b < 256 ^ b.length := by
  induction b using List.reverseRecOn with
  | nil => simp [ofBigEndian]
  | append_singleton b x ih =>
    rw [ofBigEndian_append_singleton, List.length_append, List.length_singleton, Nat.pow_succ]
    have := x.toNat_lt
    omega

/-! ## Varints -/

/-- The bytes of `EncodeVarint` when at most `k` continuation bytes follow. -/
def varintGo : Nat → Nat → Bytes
  | 0, v => [UInt8.ofNat v]
  | k + 1, v =>
    if 0x80 ≤ v then UInt8.ofNat (v % 0x80 + 0x80) :: varintGo k (v / 0x80)
    else [UInt8.ofNat v]

/-- `Buffer.EncodeVarint`: a 64-bit value takes at most ten bytes. -/
def encodeVarint (v : UInt64) : Bytes := varintGo 9 v.toNat

/-- The errors of the readers. -/
inductive WireError where
  | unexpectedEOF
  | varintTenthByte
  | nonCanonicalVarint
  | varintOverflow
  | lengthOverflow
  | fieldSize (length : Nat)
  | totalSize (total : Nat)
  | fieldNumberOverflow
  | unknownWireType
  deriving Repr, DecidableEq

/-- The loop of `DecodeVarint` with `left` rounds to go: `i` bytes have
been read and their payload is `v`. -/
def varintLoop : (left i v : Nat) → Bytes → Except WireError (Nat × Bytes)
  | 0, _, _, _ => .error .varintOverflow
  | _ + 1, _, _, [] => .error .unexpectedEOF
  | left + 1, i, v, byt :: rest =>
    if i = 9 ∧ 1 < byt.toNat % 0x80 then .error .varintTenthByte
    else
      let v := v ||| (byt.toNat % 0x80) <<< (7 * i)
      if byt.toNat < 0x80 then
        if 0 < i ∧ byt = 0 then .error .nonCanonicalVarint else .ok (v, rest)
      else varintLoop left (i + 1) v rest

theorem varintGo_ne_nil (k v : Nat) : varintGo k v ≠ [] := by
  cases k with
  | zero => simp [varintGo]
  | succ k =>
    unfold varintGo
    split <;> simp

theorem or_payload (hv : v < 2 ^ (7 * i)) : v ||| p <<< (7 * i) = v + p * 2 ^ (7 * i) := by
  rw [Nat.or_comm, ← Nat.shiftLeft_add_eq_or_of_lt hv, Nat.shiftLeft_eq]
  omega

theorem pow_septet (i c : Nat) : 2 ^ (7 * (i + 1) + c) = 0x80 * 2 ^ (7 * i + c) := by
  rw [show 7 * (i + 1) + c = 7 + (7 * i + c) by omega, Nat.pow_add]

theorem payload_lt (hv : v < 2 ^ (7 * i)) (hp : p < 0x80) :
    v + p * 2 ^ (7 * i) < 2 ^ (7 * (i + 1)) := by
  have hpow : 2 ^ (7 * (i + 1)) = 0x80 * 2 ^ (7 * i) := pow_septet i 0
  have : p * 2 ^ (7 * i) ≤ 127 * 2 ^ (7 * i) := Nat.mul_le_mul_right _ (by omega)
  omega

theorem split_payload (v w i : Nat) :
    v + w % 0x80 * 2 ^ (7 * i) + w / 0x80 * 2 ^ (7 * (i + 1)) = v + w * 2 ^ (7 * i) := by
  have hpow : 2 ^ (7 * (i + 1)) = 0x80 * 2 ^ (7 * i) := pow_septet i 0
  have hw : w * 2 ^ (7 * i) = (0x80 * (w / 0x80) + w % 0x80) * 2 ^ (7 * i) := by
    rw [Nat.div_add_mod]
  rw [hpow, hw]
  ring

/-- The reader follows the writer: the induction is on the continuation
bytes still possible, `w` is the part of the value not read yet. -/
theorem varintLoop_varintGo (rest : Bytes) (hk : i + k = 9) (hv : v < 2 ^ (7 * i))
    (hw : w < 2 ^ (7 * k + 1)) (hpos : 0 < i → w ≠ 0) :
    varintLoop (k + 1) i v (varintGo k w ++ rest) = .ok (v + w * 2 ^ (7 * i), rest) := by
  induction k generalizing i v w with
  | zero =>
    have hi : i = 9 := by omega
    have hlt : w < 2 := by simpa using hw
    have hw0 : w ≠ 0 := hpos (by omega)
    have hw1 : w = 1 := by omega
    subst hi hw1
    simp only [varintGo, List.singleton_append, varintLoop]
    rw [if_neg (by decide), if_pos (by decide), if_neg (by decide), or_payload hv]
    rfl
  | succ k ih =>
    have hi : i ≠ 9 := by omega
    unfold varintGo
    by_cases hbig : 0x80 ≤ w
    · have hbyte : (UInt8.ofNat (w % 0x80 + 0x80)).toNat = w % 0x80 + 0x80 := by
        rw [UInt8.toNat_ofNat']
        omega
      have hlow : (w % 0x80 + 0x80) % 0x80 = w % 0x80 := by omega
      have hdiv : w / 0x80 < 2 ^ (7 * k + 1) := by
        rw [Nat.div_lt_iff_lt_mul (by decide), Nat.mul_comm, ← pow_septet]
        exact hw
      rw [if_pos hbig, List.cons_append, varintLoop, hbyte, hlow]
      rw [if_neg (fun h => hi h.1), or_payload hv, if_neg (by omega)]
      rw [ih (by omega) (payload_lt hv (by omega)) hdiv (by omega), split_payload]
    · have hbyte : (UInt8.ofNat w).toNat = w := by
        rw [UInt8.toNat_ofNat']
        omega
      have hlow : w % 0x80 = w := by omega
      rw [if_neg hbig, List.singleton_append, varintLoop, hbyte, hlow]
      rw [if_neg (fun h => hi h.1), or_payload hv, if_pos (by omega), if_neg]
      rintro ⟨hi0, hb⟩
      have := congrArg UInt8.toNat hb
      rw [hbyte] at this
      exact hpos hi0 this

/-- What the loop accepts is what the writer writes for the rest of the value. -/
theorem varintLoop_sound {x : Nat} {bs rest : Bytes} (hk : i + k = 9) (hv : v < 2 ^ (7 * i))
    (h : varintLoop (k + 1) i v bs = .ok (x, rest)) :
    ∃ w, w < 2 ^ (7 * k + 1) ∧ x = v + w * 2 ^ (7 * i) ∧ (0 < i → w ≠ 0) ∧
      bs = varintGo k w ++ rest := by
  induction k generalizing i v bs with
  | zero =>
    cases bs with
    | nil => simp [varintLoop] at h
    | cons byt bs =>
      have hi : i = 9 := by omega
      subst hi
      have hbyt := byt.toNat_lt
      simp only [varintLoop, true_and] at h
      split_ifs at h with h1 h2 h3
      obtain ⟨rfl, rfl⟩ := Prod.mk.inj (Except.ok.inj h)
      refine ⟨byt.toNat, by omega, ?_, fun _ hb => h3 ⟨by decide, ?_⟩, ?_⟩
      · rw [or_payload hv, Nat.mod_eq_of_lt h2]
      · exact UInt8.toNat_inj.mp hb
      · simp [varintGo]
  | succ k ih =>
    cases bs with
    | nil => simp [varintLoop] at h
    | cons byt bs =>
      have hi : ¬ i = 9 := by omega
      have hbyt := byt.toNat_lt
      simp only [varintLoop, hi, false_and, if_false] at h
      rw [or_payload hv] at h
      split_ifs at h with h2 h3
      · obtain ⟨rfl, rfl⟩ := Prod.mk.inj (Except.ok.inj h)
        refine ⟨byt.toNat, ?_, by rw [Nat.mod_eq_of_lt h2], fun hi0 hb => h3 ⟨hi0, ?_⟩, ?_⟩
        · have : 2 ^ 7 ≤ 2 ^ (7 * (k + 1) + 1) := Nat.pow_le_pow_right (by decide) (by omega)
          omega
        · exact UInt8.toNat_inj.mp hb
        · simp [varintGo, Nat.not_le.mpr h2]
      · obtain ⟨w, hw, rfl, hpos, rfl⟩ :=
          ih (by omega) (payload_lt hv (Nat.mod_lt _ (by decide))) h
        have hw0 : w ≠ 0 := hpos (by omega)
        have hmod : (byt.toNat - 0x80 + 0x80 * w) % 0x80 = byt.toNat - 0x80 := by omega
        have hdiv : (byt.toNat - 0x80 + 0x80 * w) / 0x80 = w := by omega
        refine ⟨byt.toNat - 0x80 + 0x80 * w, ?_, ?_, by omega, ?_⟩
        · have hpow := pow_septet k 1
          omega
        · rw [← split_payload v (byt.toNat - 0x80 + 0x80 * w) i, hmod, hdiv,
            show byt.toNat % 0x80 = byt.toNat - 0x80 by omega]
        · have hback : UInt8.ofNat (byt.toNat - 0x80 + 0x80) = byt := by
            rw [Nat.sub_add_cancel (by omega), UInt8.ofNat_toNat]
          rw [varintGo, if_pos (by omega), hmod, hdiv, List.cons_append, hback]

/-! ## Read buffers -/

/-- A `Buffer` being read: the bytes from `pos` on and the bytes counted
against the budget. -/
structure Buffer where
  rest : Bytes
  totalAllocated : Nat
  deriving DecidableEq

variable {b b' : Buffer}

def maxInt : Nat := 2 ^ 63 - 1

/-- 16 MB per single bytes field. -/
def maxWireBytesSize : Nat := 16 * 1024 * 1024

/-- 32 MB total decoded per buffer. -/
def maxWireTotalSize : Nat := 32 * 1024 * 1024

namespace Buffer

def new (data : Bytes) : Buffer := ⟨data, 0⟩

def decodeVarint (b : Buffer) : Except WireError (UInt64 × Buffer) :=
  match varintLoop 10 0 0 b.rest with
  | .error e => .error e
  | .ok (v, rest) => .ok (UInt64.ofNat v, { b with rest })

/-- A length prefix and its payload: the part `DecodeBytes` and `Skip`
share, up to the copy of the payload. -/
def takeBytes (b : Buffer) : Except WireError (Bytes × Buffer) :=
  match b.decodeVarint with
  | .error e => .error e
  | .ok (length, b') =>
    let varintBytes := b.rest.length - b'.rest.length
    if maxInt < length.toNat then .error .lengthOverflow
    else if maxWireBytesSize < length.toNat then .error (.fieldSize length.toNat)
    else
      let total := b.totalAllocated + (varintBytes + length.toNat)
      if maxWireTotalSize < total then .error (.totalSize total)
      else if b'.rest.length < length.toNat then .error .unexpectedEOF
      else .ok (b'.rest.take length.toNat, ⟨b'.rest.drop length.toNat, total⟩)

def decodeBytes (b : Buffer) : Except WireError (Bytes × Buffer) := b.takeBytes

/-- `Buffer.DecodeTag`: field number and wire type. -/
def decodeTag (b : Buffer) : Except WireError (Nat × Nat × Buffer) :=
  match b.decodeVarint with
  | .error e => .error e
  | .ok (tag, b') =>
    if maxInt < tag.toNat / 8 then .error .fieldNumberOverflow
    else .ok (tag.toNat / 8, tag.toNat % 8, b')

/-- The fixed-width cases of `Skip`. -/
def skipFixed (w : Nat) (b : Buffer) : Except WireError (ByteArr w × Buffer) :=
  if maxWireTotalSize < b.totalAllocated + w then .error (.totalSize (b.totalAllocated + w))
  else if b.rest.length < w then .error .unexpectedEOF
  else .ok (copyInto w (b.rest.take w), ⟨b.rest.drop w, b.totalAllocated + w⟩)

def skip (b : Buffer) (wireType : Nat) : Except WireError Buffer :=
  match wireType with
  | 0 =>
    match b.decodeVarint with
    | .error e => .error e
    | .ok (_, b') =>
      let total := b.totalAllocated + (b.rest.length - b'.rest.length)
      if maxWireTotalSize < total then .error (.totalSize total)
      else .ok ⟨b'.rest, total⟩
  | 1 => (skipFixed 8 b).map Prod.snd
  | 2 => b.takeBytes.map Prod.snd
  | 5 => (skipFixed 4 b).map Prod.snd
  | _ => .error .unknownWireType

end Buffer

theorem encodeVarint_ne_nil (v : UInt64) : encodeVarint v ≠ [] := varintGo_ne_nil _ _

theorem decodeVarint_encode (v : UInt64) (rest : Bytes) (n : Nat) :
    Buffer.decodeVarint ⟨encodeVarint v ++ rest, n⟩ = .ok (v, ⟨rest, n⟩) := by
  have hv : v.toNat < 2 ^ (7 * 9 + 1) := v.toNat_lt
  simp only [Buffer.decodeVarint, encodeVarint]
  rw [varintLoop_varintGo rest (by omega) (by decide) hv (by omega)]
  simp

theorem decodeVarint_sound {v : UInt64} (h : b.decodeVarint = .ok (v, b')) :
    b.rest = encodeVarint v ++ b'.rest ∧ b'.totalAllocated = b.totalAllocated := by
  unfold Buffer.decodeVarint at h
  split at h
  · cases h
  · rename_i x rest hloop
    obtain ⟨rfl, rfl⟩ := Prod.mk.inj (Except.ok.inj h)
    obtain ⟨w, hw, rfl, -, hbs⟩ := varintLoop_sound (k := 9) (by omega) (by decide) hloop
    refine ⟨?_, rfl⟩
    rw [hbs, encodeVarint, UInt64.toNat_ofNat', Nat.mod_eq_of_lt]
    · simp
    · simpa using hw

theorem encodeVarint_append_inj {v w : UInt64}
    (h : encodeVarint v ++ r = encodeVarint w ++ s) : v = w ∧ r = s := by
  have hv := decodeVarint_encode v r 0
  rw [h, decodeVarint_encode] at hv
  obtain ⟨hvw, hrs⟩ := Prod.mk.inj (Except.ok.inj hv)
  exact ⟨hvw.symm, (congrArg Buffer.rest hrs).symm⟩

def encodeBytes (data : Bytes) : Bytes := encodeVarint (UInt64.ofNat data.length) ++ data

theorem toNat_ofNat_length (h : data.length ≤ maxWireBytesSize) :
    (UInt64.ofNat data.length).toNat = data.length := by
  rw [UInt64.toNat_ofNat', Nat.mod_eq_of_lt]
  calc data.length ≤ maxWireBytesSize := h
    _ < 2 ^ 64 := by decide

theorem takeBytes_encode (hlen : data.length ≤ maxWireBytesSize)
    (hroom : n + (encodeBytes data).length ≤ maxWireTotalSize) :
    Buffer.takeBytes ⟨encodeBytes data ++ r, n⟩ =
      .ok (data, ⟨r, n + (encodeBytes data).length⟩) := by
  have hint : maxWireBytesSize ≤ maxInt := by decide
  have hsplit : encodeBytes data ++ r = encodeVarint (UInt64.ofNat data.length) ++ (data ++ r) := by
    simp [encodeBytes]
  have htotal : n + (((encodeBytes data ++ r).length - (data ++ r).length) + data.length) =
      n + (encodeBytes data).length := by
    simp only [encodeBytes, List.length_append]
    omega
  simp only [Buffer.takeBytes]
  rw [hsplit, decodeVarint_encode]
  simp only [toNat_ofNat_length hlen]
  rw [← hsplit, htotal]
  rw [if_neg (by omega), if_neg (by omega), if_neg (by omega), if_neg (by simp)]
  simp

theorem takeBytes_sound (h : b.takeBytes = .ok (data, b')) :
    data.length ≤ maxWireBytesSize ∧ b.rest = encodeBytes data ++ b'.rest ∧
      b'.totalAllocated = b.totalAllocated + (encodeBytes data).length := by
  unfold Buffer.takeBytes at h
  split at h
  · cases h
  · rename_i length b1 hv
    obtain ⟨hrest, -⟩ := decodeVarint_sound hv
    dsimp only at h
    split_ifs at h with h1 h2 h3 h4
    obtain ⟨rfl, rfl⟩ := Prod.mk.inj (Except.ok.inj h)
    have hlen : (b1.rest.take length.toNat).length = length.toNat := by
      rw [List.length_take]
      omega
    have henc : encodeBytes (b1.rest.take length.toNat) =
        encodeVarint length ++ b1.rest.take length.toNat := by
      rw [encodeBytes, hlen, UInt64.ofNat_toNat]
    refine ⟨by omega, ?_, ?_⟩
    · rw [henc, hrest, List.append_assoc, List.take_append_drop]
    · simp only [henc, hrest, List.length_append, hlen]
      omega

theorem encodeBytes_append_inj {d e : Bytes} (hd : d.length ≤ maxWireBytesSize)
    (he : e.length ≤ maxWireBytesSize) (h : encodeBytes d ++ r = encodeBytes e ++ s) :
    d = e ∧ r = s := by
  simp only [encodeBytes, List.append_assoc] at h
  obtain ⟨hlen, happ⟩ := encodeVarint_append_inj h
  have hlen' : d.length = e.length := by
    rw [← toNat_ofNat_length hd, hlen, toNat_ofNat_length he]
  exact List.append_inj happ hlen'

/-! ## Fields -/

/-- The payload of a field, one constructor for each wire type the readers
know. -/
inductive WireValue where
  | varint (v : UInt64)
  | fixed64 (b : ByteArr 8)
  | bytes (d : Bytes)
  | fixed32 (b : ByteArr 4)
  deriving DecidableEq

namespace WireValue

/-- `WireVarint`, `WireFixed64`, `WireBytes`, `WireFixed32`. -/
def wireType : WireValue → Nat
  | varint _ => 0
  | fixed64 _ => 1
  | bytes _ => 2
  | fixed32 _ => 5

def encode : WireValue → Bytes
  | varint v => encodeVarint v
  | fixed64 b => b.toList
  | bytes d => encodeBytes d
  | fixed32 b => b.toList

/-- A byte string fits the per-field limit. -/
def Fits : WireValue → Prop
  | bytes d => d.length ≤ maxWireBytesSize
  | _ => True

end WireValue

/-- A field as it stands on the wire: its number and its payload. -/
structure WireField where
  num : Nat
  value : WireValue
  deriving DecidableEq

variable {fs : List WireField}

namespace WireField

/-- `EncodeTag`: `fieldNum << 3 | wireType`. -/
def encodeTag (fieldNum wireType : Nat) : Bytes :=
  encodeVarint (UInt64.ofNat (fieldNum * 8 + wireType))

def encode (f : WireField) : Bytes := encodeTag f.num f.value.wireType ++ f.value.encode

/-- The tag fits 64 bits and the payload its limit. -/
def Fits (f : WireField) : Prop := f.num < 2 ^ 61 ∧ f.value.Fits

end WireField

/-- The bytes of a sequence of fields. -/
def encodeFields (fs : List WireField) : Bytes := fs.flatMap WireField.encode

@[simp] theorem encodeFields_nil : encodeFields [] = [] := rfl

@[simp] theorem encodeFields_cons (f : WireField) (fs : List WireField) :
    encodeFields (f :: fs) = f.encode ++ encodeFields fs := rfl

theorem wireType_lt (v : WireValue) : v.wireType < 8 := by
  cases v <;> simp [WireValue.wireType]

theorem WireField.encode_ne_nil (f : WireField) : f.encode ≠ [] := by
  simp [WireField.encode, WireField.encodeTag, encodeVarint_ne_nil]

theorem encodeFields_eq_nil : encodeFields fs = [] ↔ fs = [] := by
  cases fs with
  | nil => simp
  | cons f fs => simp [WireField.encode_ne_nil]

theorem length_le_encodeFields (fs : List WireField) : fs.length ≤ (encodeFields fs).length := by
  induction fs with
  | nil => simp
  | cons f fs ih =>
    have := List.length_pos_of_ne_nil f.encode_ne_nil
    simp only [List.length_cons, encodeFields_cons, List.length_append]
    omega

theorem encode_length_le {f : WireField} (h : f ∈ fs) :
    f.encode.length ≤ (encodeFields fs).length := by
  induction fs with
  | nil => cases h
  | cons g fs ih =>
    rw [encodeFields_cons, List.length_append]
    rcases List.mem_cons.mp h with rfl | h
    · exact Nat.le_add_right _ _
    · exact (ih h).trans (Nat.le_add_left _ _)

/-- In a short message every byte string fits the per-field limit. -/
theorem fits_of_length (hnum : ∀ f ∈ fs, f.num < 2 ^ 61)
    (hlen : (encodeFields fs).length ≤ maxWireBytesSize) : ∀ f ∈ fs, f.Fits := by
  intro f hf
  refine ⟨hnum f hf, ?_⟩
  have hle := (encode_length_le hf).trans hlen
  cases hv : f.value with
  | bytes d =>
    simp only [WireField.encode, hv, WireValue.encode, encodeBytes, List.length_append] at hle
    show d.length ≤ maxWireBytesSize
    omega
  | varint | fixed64 | fixed32 => trivial

theorem decodeTag_encode (hnum : num < 2 ^ 61) (hwt : wt < 8) (rest : Bytes) (n : Nat) :
    Buffer.decodeTag ⟨WireField.encodeTag num wt ++ rest, n⟩ = .ok (num, wt, ⟨rest, n⟩) := by
  have htag : (UInt64.ofNat (num * 8 + wt)).toNat = num * 8 + wt := by
    rw [UInt64.toNat_ofNat']
    omega
  have hmax : ¬ maxInt < num := by
    rw [maxInt]
    omega
  simp only [Buffer.decodeTag, WireField.encodeTag, decodeVarint_encode, htag]
  rw [show (num * 8 + wt) / 8 = num by omega, show (num * 8 + wt) % 8 = wt by omega, if_neg hmax]

theorem decodeTag_sound (h : b.decodeTag = .ok (num, wt, b')) :
    num < 2 ^ 61 ∧ wt < 8 ∧ b.rest = WireField.encodeTag num wt ++ b'.rest ∧
      b'.totalAllocated = b.totalAllocated := by
  unfold Buffer.decodeTag at h
  split at h
  · cases h
  · rename_i tag b1 hv
    obtain ⟨hrest, htot⟩ := decodeVarint_sound hv
    split_ifs at h
    obtain ⟨rfl, h'⟩ := Prod.mk.inj (Except.ok.inj h)
    obtain ⟨rfl, rfl⟩ := Prod.mk.inj h'
    have hlt := tag.toNat_lt
    refine ⟨by omega, by omega, ?_, htot⟩
    rw [hrest, WireField.encodeTag, show tag.toNat / 8 * 8 + tag.toNat % 8 = tag.toNat by omega,
      UInt64.ofNat_toNat]

theorem skipFixed_encode (a : ByteArr w) (rest : Bytes) (n : Nat) (hroom : n + w ≤ maxWireTotalSize)
    : Buffer.skipFixed w ⟨a.toList ++ rest, n⟩ = .ok (a, ⟨rest, n + w⟩) := by
  have hlen : a.toList.length = w := a.toList_length
  simp only [Buffer.skipFixed]
  rw [if_neg (by omega), if_neg (by rw [List.length_append]; omega), List.take_left' hlen,
    List.drop_left' hlen, copyInto_toList]

theorem skipFixed_sound {a : ByteArr w} (h : b.skipFixed w = .ok (a, b')) :
    b.rest = a.toList ++ b'.rest ∧ b'.totalAllocated = b.totalAllocated + w := by
  unfold Buffer.skipFixed at h
  split_ifs at h with h1 h2
  obtain ⟨rfl, rfl⟩ := Prod.mk.inj (Except.ok.inj h)
  refine ⟨?_, rfl⟩
  rw [copyInto_toList_of_le_length (by rw [List.length_take]; omega), List.take_take, min_self,
    List.take_append_drop]

theorem skip_encode {v : WireValue} (hfits : v.Fits)
    (hroom : n + v.encode.length ≤ maxWireTotalSize) :
    Buffer.skip ⟨v.encode ++ r, n⟩ v.wireType = .ok ⟨r, n + v.encode.length⟩ := by
  cases v with
  | varint v =>
    have htotal : n + ((encodeVarint v ++ r).length - r.length) =
        n + (encodeVarint v).length := by
      rw [List.length_append, Nat.add_sub_cancel]
    simp only [WireValue.encode] at hroom
    simp only [WireValue.encode, WireValue.wireType, Buffer.skip, decodeVarint_encode, htotal]
    rw [if_neg (Nat.not_lt.mpr hroom)]
  | fixed64 b | fixed32 b =>
    simp only [WireValue.encode, WireValue.wireType, Buffer.skip]
    simp only [WireValue.encode, b.toList_length] at hroom ⊢
    rw [skipFixed_encode b r n hroom]
    rfl
  | bytes d =>
    simp only [WireValue.encode, WireValue.wireType, Buffer.skip]
    rw [takeBytes_encode hfits hroom]
    rfl

theorem of_map_eq_ok {ε α β : Type} {f : α → β} {x : Except ε α} {y : β} (h : x.map f = .ok y) :
    ∃ a, x = .ok a ∧ f a = y := by
  cases x with
  | error e => cases h
  | ok a => exact ⟨a, rfl, Except.ok.inj h⟩

theorem skip_sound (h : b.skip wt = .ok b') :
    ∃ v : WireValue, v.wireType = wt ∧ v.Fits ∧ b.rest = v.encode ++ b'.rest ∧
      b'.totalAllocated = b.totalAllocated + v.encode.length := by
  unfold Buffer.skip at h
  split at h
  · split at h
    · cases h
    · rename_i v b1 hv
      obtain ⟨hrest, -⟩ := decodeVarint_sound hv
      dsimp only at h
      split_ifs at h
      obtain rfl := Except.ok.inj h
      refine ⟨.varint v, rfl, trivial, hrest, ?_⟩
      simp only [hrest, List.length_append, WireValue.encode]
      omega
  · obtain ⟨⟨a, b1⟩, hf, rfl⟩ := of_map_eq_ok h
    obtain ⟨hrest, htot⟩ := skipFixed_sound hf
    exact ⟨.fixed64 a, rfl, trivial, hrest, by rw [htot, WireValue.encode, a.toList_length]⟩
  · obtain ⟨⟨d, b1⟩, hf, rfl⟩ := of_map_eq_ok h
    obtain ⟨hlen, hrest, htot⟩ := takeBytes_sound hf
    exact ⟨.bytes d, rfl, hlen, hrest, htot⟩
  · obtain ⟨⟨a, b1⟩, hf, rfl⟩ := of_map_eq_ok h
    obtain ⟨hrest, htot⟩ := skipFixed_sound hf
    exact ⟨.fixed32 a, rfl, trivial, hrest, by rw [htot, WireValue.encode, a.toList_length]⟩
  · cases h

/-! ## A byte string spells one sequence of fields -/

theorem encodeTag_append_inj {wm wn : Nat} (hm : m < 2 ^ 61) (hn : n < 2 ^ 61) (hwm : wm < 8)
    (hwn : wn < 8) (h : WireField.encodeTag m wm ++ r = WireField.encodeTag n wn ++ s) :
    m = n ∧ wm = wn ∧ r = s := by
  have hd := decodeTag_encode hm hwm r 0
  rw [h, decodeTag_encode hn hwn] at hd
  obtain ⟨h1, h2⟩ := Prod.mk.inj (Except.ok.inj hd)
  obtain ⟨h2, h3⟩ := Prod.mk.inj h2
  exact ⟨h1.symm, h2.symm, (congrArg Buffer.rest h3).symm⟩

theorem WireValue.encode_append_inj {v w : WireValue} (htype : v.wireType = w.wireType)
    (hv : v.Fits) (hw : w.Fits) (h : v.encode ++ r = w.encode ++ s) : v = w ∧ r = s := by
  cases v <;> cases w <;> simp only [WireValue.wireType, Nat.reduceEqDiff] at htype
  case varint.varint a b =>
    obtain ⟨rfl, rfl⟩ := encodeVarint_append_inj h
    exact ⟨rfl, rfl⟩
  case bytes.bytes a b =>
    obtain ⟨rfl, rfl⟩ := encodeBytes_append_inj hv hw h
    exact ⟨rfl, rfl⟩
  case fixed64.fixed64 a b | fixed32.fixed32 a b =>
    obtain ⟨hab, rfl⟩ := List.append_inj h (a.toList_length.trans b.toList_length.symm)
    exact ⟨by rw [List.Vector.eq _ _ hab], rfl⟩

theorem encodeFields_inj {gs : List WireField} (hfs : ∀ f ∈ fs, f.Fits) (hgs : ∀ g ∈ gs, g.Fits)
    (h : encodeFields fs = encodeFields gs) : fs = gs := by
  induction fs generalizing gs with
  | nil =>
    rw [encodeFields_nil, eq_comm, encodeFields_eq_nil] at h
    exact h.symm
  | cons f fs ih =>
    cases gs with
    | nil => exact absurd (encodeFields_eq_nil.mp h) (by simp)
    | cons g gs =>
      obtain ⟨hfn, hfv⟩ := hfs f (by simp)
      obtain ⟨hgn, hgv⟩ := hgs g (by simp)
      simp only [encodeFields_cons, WireField.encode, List.append_assoc] at h
      obtain ⟨hnum, htype, h⟩ :=
        encodeTag_append_inj hfn hgn (wireType_lt _) (wireType_lt _) h
      obtain ⟨hval, h⟩ := WireValue.encode_append_inj htype hfv hgv h
      have hfg : f = g := by
        cases f
        cases g
        simp_all
      rw [hfg, ih (fun f hf => hfs f (by simp [hf])) (fun g hg => hgs g (by simp [hg])) h]

end Qau
