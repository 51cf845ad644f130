import Qau.WireMessage

/-!
# The cases the decoders are made of

The switches of `encoding` repeat a handful of cases: a number, a number
with a bound, a byte string with or without a limit, a 32-byte hash, an
address, a big integer, a list that grows by one element per field. Each
is a definition here, over the name in its errors, its bounds and its
update, together with the lemma that says what it makes of the values the
matching writer produced. A writer that leaves out the zero value is
matched by a case whose update with the zero value changes nothing.
-/

namespace Qau

variable {d : Bytes} {l : List Bytes} {limit maxLen : Nat} {v : Option Int}

/-- The refusals of the decoders, with the field and the offending size. -/
inductive EncodingError where
  | emptyData
  | tooLarge (size limit : Nat)
  | exceeds (name : String) (limit got : Nat)
  | tooMany (name : String) (limit got : Nat)
  | invalidHash (name : String) (got : Nat)
  | invalidAddress (name : String) (got : Nat)
  | badLength (name : String) (got : Nat)
  | zeroChainID
  | invalidTxType (t : UInt8)
  | requiredExceedsTotal (required total : Int)
  deriving DecidableEq

section Cases

variable {σ : Type}

def uint64Case (name : String) (set : UInt64 → σ) : FieldCase σ EncodingError :=
  .varint name fun v => .ok (set v)

/-- A number that must not exceed `limit`. -/
def boundedCase (name : String) (limit : Nat) (set : UInt64 → σ) : FieldCase σ EncodingError :=
  .varint name fun v =>
    if limit < v.toNat then .error (.exceeds name limit v.toNat) else .ok (set v)

/-- A byte string of any length. -/
def bytesCase (name : String) (set : Bytes → σ) : FieldCase σ EncodingError :=
  .bytes name (.ok ()) fun d => .ok (set d)

/-- A byte string of at most `limit` bytes. -/
def limitedCase (name : String) (limit : Nat) (set : Bytes → σ) : FieldCase σ EncodingError :=
  .bytes name (.ok ()) fun d =>
    if limit < d.length then .error (.exceeds name limit d.length) else .ok (set d)

/-- A non-negative integer of at most 32 bytes. -/
@[irreducible] def intCase (name : String) (set : Int → σ) : FieldCase σ EncodingError :=
  limitedCase name 32 fun d => set (ofBigEndian d)

/-- A byte string that must be a hash, with the error for another length. -/
@[irreducible] def hashCase (name : String) (err : String → Nat → EncodingError)
    (set : ByteArr 32 → σ) : FieldCase σ EncodingError :=
  .bytes name (.ok ()) fun d =>
    if d.length ≠ 32 then .error (err name d.length) else .ok (set (copyInto 32 d))

/-- A byte string that is taken as a hash if it has the length of one, and
dropped otherwise. -/
@[irreducible] def lenientHashCase (name : String) (s : σ) (set : ByteArr 32 → σ) : FieldCase σ EncodingError :=
  .bytes name (.ok ()) fun d => .ok (if d.length = 32 then set (copyInto 32 d) else s)

/-- A byte string that must be an address. -/
@[irreducible] def addressCase (name : String) (set : ByteArr 20 → σ) : FieldCase σ EncodingError :=
  .bytes name (.ok ()) fun d =>
    if d.length ≠ 20 then .error (.invalidAddress name d.length) else .ok (set (copyInto 20 d))

/-- One more element of a list of at most `limit` byte strings. -/
@[irreducible] def elementCase (name : String) (limit maxLen : Nat) (l : List Bytes) (set : List Bytes → σ) :
    FieldCase σ EncodingError :=
  .bytes name (.ok ()) fun d =>
    if limit ≤ l.length then .error (.tooMany name limit (l.length + 1))
    else if maxLen < d.length then .error (.exceeds name maxLen d.length)
    else .ok (set (l ++ [d]))

/-! ## Writers of optional values -/

/-- An integer that is written unless it is nil or zero. -/
def encodeIntField (v : Option Int) : List WireValue :=
  match v with
  | none => []
  | some v => if v ≠ 0 then encodeBytesField (bigBytes v.natAbs) else []

/-- What an integer that nothing was written for is read back as, where
its absence means nil. -/
def writtenInt (v : Option Int) : Option Int := v.filter fun x => x ≠ 0

theorem writtenInt_some {x : Int} (hx : x ≠ 0) : writtenInt (some x) = some x := by
  rw [writtenInt, Option.filter_some_pos (by simpa using hx)]

@[simp] theorem getD_writtenInt (v : Option Int) : (writtenInt v).getD 0 = v.getD 0 := by
  cases v with
  | none => rfl
  | some x =>
    by_cases hx : x = 0
    · subst hx
      rfl
    · rw [writtenInt_some hx]

/-- A hash that is written unless it is zero. -/
def encodeHashField (h : ByteArr 32) : List WireValue :=
  if h ≠ zeroArr 32 then encodeBytesField h.toList else []

theorem encodeBytesField_of_ne (hd : d ≠ []) : encodeBytesField d = [.bytes d] := by
  rw [encodeBytesField, if_pos (List.length_pos_of_ne_nil hd)]

theorem encodeBytesField_toList {n : Nat} (hn : 0 < n) (a : ByteArr n) :
    encodeBytesField a.toList = [.bytes a.toList] := by
  rw [encodeBytesField, a.toList_length, if_pos hn]

theorem encodeBytesField_length_le (d : Bytes) : (encodeBytesField d).length ≤ 1 := by
  unfold encodeBytesField
  split <;> simp

theorem encodeUint32Field_length_le (v : UInt32) : (encodeUint32Field v).length ≤ 1 := by
  unfold encodeUint32Field
  split <;> simp

theorem encodeUint64Field_length_le (v : UInt64) : (encodeUint64Field v).length ≤ 1 := by
  unfold encodeUint64Field
  split <;> simp

theorem encodeIntField_length_le (v : Option Int) : (encodeIntField v).length ≤ 1 := by
  unfold encodeIntField
  split
  · simp
  · split
    · exact encodeBytesField_length_le _
    · simp

theorem encodeHashField_length_le (h : ByteArr 32) : (encodeHashField h).length ≤ 1 := by
  unfold encodeHashField
  split
  · exact encodeBytesField_length_le _
  · simp

/-! ## The writers are injective -/

theorem encodeUint32Field_inj {v w : UInt32} (h : encodeUint32Field v = encodeUint32Field w) :
    v = w := by
  unfold encodeUint32Field at h
  split_ifs at h with hv hw hw
  · simp only [List.cons.injEq, WireValue.varint.injEq, and_true] at h
    exact UInt32.toUInt64_inj.mp h
  · rw [not_not.mp hv, not_not.mp hw]

theorem encodeUint64Field_inj {v w : UInt64} (h : encodeUint64Field v = encodeUint64Field w) :
    v = w := by
  unfold encodeUint64Field at h
  split_ifs at h with hv hw hw
  · simpa using h
  · rw [not_not.mp hv, not_not.mp hw]

theorem encodeBytesField_inj {e : Bytes} (h : encodeBytesField d = encodeBytesField e) : d = e := by
  unfold encodeBytesField at h
  split_ifs at h with hd he he
  · simpa using h
  · rw [List.eq_nil_of_length_eq_zero (by omega : d.length = 0),
      List.eq_nil_of_length_eq_zero (by omega : e.length = 0)]

theorem encodeHashField_inj {a b : ByteArr 32} (h : encodeHashField a = encodeHashField b) :
    a = b := by
  have hne : ∀ c : ByteArr 32, encodeBytesField c.toList ≠ [] := by
    intro c
    rw [encodeBytesField_toList (by decide)]
    exact List.cons_ne_nil _ _
  unfold encodeHashField at h
  split_ifs at h with ha hb hb
  · exact List.Vector.eq _ _ (encodeBytesField_inj h)
  · exact absurd h (hne a)
  · exact absurd h.symm (hne b)
  · rw [not_not.mp ha, not_not.mp hb]

theorem encodeIntField_inj {x y : Int} (hx : 0 ≤ x) (hy : 0 ≤ y)
    (h : encodeIntField (some x) = encodeIntField (some y)) : x = y := by
  have hne : ∀ z : Int, z ≠ 0 → encodeBytesField (bigBytes z.natAbs) ≠ [] := by
    intro z hz
    rw [encodeBytesField_of_ne (by simpa using hz)]
    exact List.cons_ne_nil _ _
  simp only [encodeIntField] at h
  split_ifs at h with h1 h2 h2
  · have := bigBytes_inj (encodeBytesField_inj h)
    omega
  · exact absurd h (hne x h1)
  · exact absurd h.symm (hne y h2)
  · rw [not_not.mp h1, not_not.mp h2]

/-! ## Written values fit -/

theorem fits_encodeBytesField (hd : d.length ≤ maxWireBytesSize) :
    ∀ v ∈ encodeBytesField d, v.Fits := by
  unfold encodeBytesField
  split <;> simp [WireValue.Fits, hd]

theorem fits_encodeUint32Field (x : UInt32) : ∀ v ∈ encodeUint32Field x, v.Fits := by
  unfold encodeUint32Field
  split <;> simp [WireValue.Fits]

theorem fits_encodeUint64Field (x : UInt64) : ∀ v ∈ encodeUint64Field x, v.Fits := by
  unfold encodeUint64Field
  split <;> simp [WireValue.Fits]

theorem fits_encodeHashField (h : ByteArr 32) : ∀ v ∈ encodeHashField h, v.Fits := by
  unfold encodeHashField
  split
  · exact fits_encodeBytesField (by rw [h.toList_length]; decide)
  · simp

theorem fits_flatMap {n : Nat} (hl : ∀ x ∈ l, x.length ≤ n)
    (hn : n ≤ maxWireBytesSize) : ∀ v ∈ l.flatMap encodeBytesField, v.Fits := by
  intro v hv
  obtain ⟨x, hx, hv⟩ := List.mem_flatMap.mp hv
  exact fits_encodeBytesField ((hl x hx).trans hn) v hv

/-! ## What the cases make of the writers' values -/

variable {switch : σ → Nat → FieldCase σ EncodingError} {s : σ} {n : Nat} {name : String}

theorem runGroup_uint64 {set : UInt64 → σ} (v : UInt64) (hcase : switch s n = uint64Case name set)
    (h0 : set 0 = s) : runGroup switch s ⟨n, encodeUint64Field v⟩ = .ok (set v) := by
  by_cases hv : v = 0
  · subst hv
    rw [h0]
    rfl
  · rw [encodeUint64Field, if_pos hv, runGroup_singleton, hcase]
    rfl

theorem runGroup_uint64Always {set : UInt64 → σ} (v : UInt64)
    (hcase : switch s n = uint64Case name set) :
    runGroup switch s ⟨n, encodeUint64FieldAlways v⟩ = .ok (set v) := by
  rw [encodeUint64FieldAlways, runGroup_singleton, hcase]
  rfl

theorem runGroup_uint32_bounded {set : UInt64 → σ} (v : UInt32)
    (hcase : switch s n = boundedCase name limit set) (hv : v.toNat ≤ limit) (h0 : set 0 = s) :
    runGroup switch s ⟨n, encodeUint32Field v⟩ = .ok (set v.toUInt64) := by
  by_cases hv0 : v = 0
  · subst hv0
    show _ = Except.ok (set 0)
    rw [h0]
    rfl
  · rw [encodeUint32Field, if_pos hv0, runGroup_singleton, hcase]
    simp only [boundedCase, applyCase, refused, UInt32.toNat_toUInt64, if_neg (Nat.not_lt.mpr hv)]

theorem runGroup_bytes {set : Bytes → σ} (d : Bytes) (hcase : switch s n = bytesCase name set)
    (h0 : set [] = s) : runGroup switch s ⟨n, encodeBytesField d⟩ = .ok (set d) := by
  cases d with
  | nil =>
    rw [h0]
    rfl
  | cons x d =>
    rw [encodeBytesField_of_ne (List.cons_ne_nil x d), runGroup_singleton, hcase]
    rfl

theorem applyCase_limited {set : Bytes → σ} (hd : d.length ≤ limit) :
    applyCase (limitedCase name limit set) s (.bytes d) = .ok (set d) := by
  simp only [limitedCase, applyCase, refused, if_neg (Nat.not_lt.mpr hd)]

theorem runGroup_limited {set : Bytes → σ}
    (hcase : switch s n = limitedCase name limit set) (hd : d.length ≤ limit) (h0 : set [] = s) :
    runGroup switch s ⟨n, encodeBytesField d⟩ = .ok (set d) := by
  cases d with
  | nil =>
    rw [h0]
    rfl
  | cons x d =>
    rw [encodeBytesField_of_ne (List.cons_ne_nil x d), runGroup_singleton, hcase,
      applyCase_limited hd]

theorem runGroup_limitedAlways {set : Bytes → σ} (hcase : switch s n = limitedCase name limit set)
    (hd : d.length ≤ limit) : runGroup switch s ⟨n, encodeBytesFieldAlways d⟩ = .ok (set d) := by
  rw [encodeBytesFieldAlways, runGroup_singleton, hcase, applyCase_limited hd]

section
variable {err : String → Nat → EncodingError} {set : ByteArr 32 → σ} (h : ByteArr 32)
  (hcase : switch s n = hashCase name err set)
include h hcase

theorem runGroup_hash : runGroup switch s ⟨n, encodeBytesField h.toList⟩ = .ok (set h) := by
  rw [encodeBytesField_toList (by decide), runGroup_singleton, hcase]
  simp [hashCase, applyCase, refused]

theorem runGroup_hash_nonzero (h0 : set (zeroArr 32) = s) :
    runGroup switch s ⟨n, encodeHashField h⟩ = .ok (set h) := by
  by_cases hz : h = zeroArr 32
  · subst hz
    rw [h0, encodeHashField, if_neg (not_not.mpr rfl)]
    rfl
  · rw [encodeHashField, if_pos hz, runGroup_hash h hcase]

end

theorem runGroup_lenientHash {set : ByteArr 32 → σ} (h : ByteArr 32)
    (hcase : switch s n = lenientHashCase name s set) (h0 : set (zeroArr 32) = s) :
    runGroup switch s ⟨n, encodeHashField h⟩ = .ok (set h) := by
  by_cases hz : h = zeroArr 32
  · subst hz
    rw [h0, encodeHashField, if_neg (not_not.mpr rfl)]
    rfl
  · rw [encodeHashField, if_pos hz, encodeBytesField_toList (by decide), runGroup_singleton, hcase]
    simp [lenientHashCase, applyCase, refused]

theorem runGroup_address {set : ByteArr 20 → σ} (a : ByteArr 20)
    (hcase : switch s n = addressCase name set) :
    runGroup switch s ⟨n, encodeBytesField a.toList⟩ = .ok (set a) := by
  rw [encodeBytesField_toList (by decide), runGroup_singleton, hcase]
  simp [addressCase, applyCase, refused]

theorem bigBytes_natAbs_length {v : Int} (hpos : 0 ≤ v) (hlt : v < 2 ^ 256) :
    (bigBytes v.natAbs).length ≤ 32 := by
  refine bigBytes_length_le ?_
  rw [show (256 : Nat) ^ 32 = 2 ^ 256 by norm_num]
  omega

theorem runGroup_int {set : Int → σ} {v : Int} (hcase : switch s n = intCase name set)
    (hpos : 0 ≤ v) (hlt : v < 2 ^ 256) (hv : v ≠ 0) :
    runGroup switch s ⟨n, encodeBytesField (bigBytes v.natAbs)⟩ = .ok (set v) := by
  have hlen := bigBytes_natAbs_length hpos hlt
  have hne : bigBytes v.natAbs ≠ [] := by
    rw [Ne, bigBytes_eq_nil]
    omega
  rw [encodeBytesField_of_ne hne, runGroup_singleton, hcase, intCase, applyCase_limited hlen,
    ofBigEndian_bigBytes, Int.natAbs_of_nonneg hpos]

/-- The bounds of an integer that the decoder takes back: nil, or
non-negative and at most 32 bytes. -/
def IntFits (v : Option Int) : Prop := ∀ x, v = some x → 0 ≤ x ∧ x < 2 ^ 256

theorem intFits_some {x : Int} (h0 : 0 ≤ x) (hx : x < 2 ^ 256) : IntFits (some x) := by
  intro y hy
  obtain rfl := Option.some.inj hy
  exact ⟨h0, hx⟩

theorem IntFits.bytes_le (hv : IntFits v) : ∀ w ∈ encodeIntField v, w.Fits := by
  cases v with
  | none => simp [encodeIntField]
  | some x =>
    obtain ⟨hpos, hlt⟩ := hv x rfl
    have hlen : (bigBytes x.natAbs).length ≤ 32 := bigBytes_natAbs_length hpos hlt
    simp only [encodeIntField]
    split
    · exact fits_encodeBytesField (hlen.trans (by decide))
    · simp

theorem runGroup_int_nil {f : σ → Option Int → σ}
    (hcase : switch s n = intCase name fun x => f s (some x)) (hv : IntFits v) (h0 : f s none = s) :
    runGroup switch s ⟨n, encodeIntField v⟩ = .ok (f s (writtenInt v)) := by
  cases v with
  | none =>
    rw [show writtenInt none = none from rfl, h0]
    rfl
  | some x =>
    obtain ⟨hpos, hlt⟩ := hv x rfl
    by_cases hx : x = 0
    · subst hx
      rw [show writtenInt (some 0) = none from rfl, h0]
      rfl
    · rw [writtenInt_some hx]
      simp only [encodeIntField, if_pos hx]
      exact runGroup_int hcase hpos hlt hx

theorem runGroup_int_zero {set : Int → σ} (hcase : switch s n = intCase name set) (hv : IntFits v)
    (h0 : set 0 = s) : runGroup switch s ⟨n, encodeIntField v⟩ = .ok (set (v.getD 0)) := by
  rw [← getD_writtenInt]
  exact runGroup_int_nil (f := fun _ v => set (v.getD 0)) hcase hv h0

theorem runGroup_elements_append {f : List Bytes → σ}
    (hcase : ∀ l, switch (f l) n = elementCase name limit maxLen l f) (xs : List Bytes)
    (hlimit : l.length + xs.length ≤ limit) (hlen : ∀ x ∈ xs, x.length ≤ maxLen) :
    runGroup switch (f l) ⟨n, xs.flatMap encodeBytesField⟩ =
      .ok (f (l ++ xs.filter fun x => x ≠ [])) := by
  induction xs generalizing l with
  | nil => simp [runGroup_nil]
  | cons x xs ih =>
    rw [List.length_cons] at hlimit
    have hx := hlen x (by simp)
    have hxs : ∀ y ∈ xs, y.length ≤ maxLen := fun y hy => hlen y (by simp [hy])
    cases x with
    | nil =>
      rw [List.flatMap_cons, List.filter_cons_of_neg (by simp)]
      exact ih (by omega) hxs
    | cons y x =>
      rw [List.flatMap_cons, List.filter_cons_of_pos (by simp), List.append_cons]
      have hstep : applyCase (switch (f l) n) (f l) (.bytes (y :: x)) =
          .ok (f (l ++ [y :: x])) := by
        have hroom : ¬ limit ≤ l.length := by omega
        rw [hcase]
        simp only [elementCase, applyCase, refused, if_neg hroom, if_neg (Nat.not_lt.mpr hx)]
      show List.foldlM _ _ (WireValue.bytes (y :: x) :: xs.flatMap encodeBytesField) = _
      rw [List.foldlM_cons, hstep]
      exact ih (by rw [List.length_append, List.length_singleton]; omega) hxs

/-- The elements of a list come back in order, without the empty ones. -/
theorem runGroup_elements {f : σ → List Bytes → σ} {xs : List Bytes}
    (hcase : ∀ l, switch (f s l) n = elementCase name limit maxLen l (f s)) (h0 : f s [] = s)
    (hlimit : xs.length ≤ limit) (hlen : ∀ x ∈ xs, x.length ≤ maxLen) :
    runGroup switch s ⟨n, xs.flatMap encodeBytesField⟩ =
      .ok (f s (xs.filter fun x => x ≠ [])) := by
  conv_lhs => rw [← h0]
  exact runGroup_elements_append hcase xs (by simpa using hlimit) hlen

/-! ## What the cases can do to the message -/

variable {P : σ → Prop}

theorem yields_uint64 {set : UInt64 → σ} (h : ∀ x, P (set x)) : Yields (uint64Case name set) s P :=
  yields_varint fun x _ hx => Except.ok.inj hx ▸ h x

theorem yields_bounded {set : UInt64 → σ} (h : ∀ x, x.toNat ≤ limit → P (set x)) :
    Yields (boundedCase name limit set) s P := by
  refine yields_varint fun x s' hx => ?_
  split at hx
  · cases hx
  · exact Except.ok.inj hx ▸ h x (by omega)

theorem yields_limited {set : Bytes → σ} (h : ∀ d, d.length ≤ limit → P (set d)) :
    Yields (limitedCase name limit set) s P := by
  refine yields_bytesWith fun d s' _ hd => ?_
  split at hd
  · cases hd
  · exact Except.ok.inj hd ▸ h d (by omega)

theorem yields_int {set : Int → σ} (h : ∀ x, 0 ≤ x → x < 2 ^ 256 → P (set x)) :
    Yields (intCase name set) s P := by
  unfold intCase
  refine yields_limited fun d hd => h _ (Int.natCast_nonneg _) ?_
  have hlt : ofBigEndian d < 2 ^ 256 :=
    calc ofBigEndian d < 256 ^ d.length := ofBigEndian_lt d
      _ ≤ 256 ^ 32 := Nat.pow_le_pow_right (by decide) hd
      _ = 2 ^ 256 := by norm_num
  exact_mod_cast hlt

theorem yields_lenientHash {set : ByteArr 32 → σ} {t : σ} (ht : P t) (h : ∀ a, P (set a)) :
    Yields (lenientHashCase name t set) s P := by
  unfold lenientHashCase
  refine yields_bytesWith fun d s' _ hd => ?_
  obtain rfl := Except.ok.inj hd
  split
  · exact h _
  · exact ht

theorem yields_address {set : ByteArr 20 → σ} (h : ∀ a, P (set a)) :
    Yields (addressCase name set) s P := by
  unfold addressCase
  refine yields_bytesWith fun d s' _ hd => ?_
  split at hd
  · cases hd
  · exact Except.ok.inj hd ▸ h _

theorem yields_hash {err : String → Nat → EncodingError} {set : ByteArr 32 → σ}
    (h : ∀ a, P (set a)) : Yields (hashCase name err set) s P := by
  unfold hashCase
  refine yields_bytesWith fun d s' _ hd => ?_
  split at hd
  · cases hd
  · exact Except.ok.inj hd ▸ h _

theorem yields_element {set : List Bytes → σ}
    (h : ∀ d : Bytes, l.length < limit → d.length ≤ maxLen → P (set (l ++ [d]))) :
    Yields (elementCase name limit maxLen l set) s P := by
  unfold elementCase
  refine yields_bytesWith fun d s' _ hd => ?_
  split_ifs at hd
  exact Except.ok.inj hd ▸ h d (by omega) (by omega)

/-! ## Cases seen through a map of messages -/

/-- The case on the images of the messages. -/
def FieldCase.map (f : σ → σ) : FieldCase σ EncodingError → FieldCase σ EncodingError
  | .varint name set => .varint name fun v => (set v).map f
  | .bytes name ready set => .bytes name ready fun d => (set d).map f
  | .unknown => .unknown

theorem applyCase_map (f : σ → σ) (c : FieldCase σ EncodingError) (s : σ) (v : WireValue) :
    applyCase (c.map f) (f s) v = (applyCase c s v).map f := by
  have hrefused : ∀ r : Except EncodingError σ, refused (r.map f) = (refused r).map f := by
    intro r
    cases r <;> rfl
  cases c with
  | varint name set =>
    cases v with
    | varint x => exact hrefused _
    | fixed64 | bytes | fixed32 => rfl
  | bytes name ready set =>
    cases v with
    | bytes d =>
      cases ready with
      | error e => rfl
      | ok u => exact hrefused _
    | varint | fixed64 | fixed32 => rfl
  | unknown => cases v <;> rfl

section Map

variable (f : σ → σ)

theorem map_ite_ok {p : Prop} [Decidable p] (e : EncodingError) (a : σ) :
    (if p then .error e else .ok a : Except EncodingError σ).map f =
      if p then .error e else .ok (f a) := by
  split <;> rfl

@[simp] theorem uint64Case_map (set : UInt64 → σ) :
    (uint64Case name set).map f = uint64Case name fun v => f (set v) := rfl

@[simp] theorem boundedCase_map (limit : Nat) (set : UInt64 → σ) :
    (boundedCase name limit set).map f = boundedCase name limit fun v => f (set v) := by
  simp only [boundedCase, FieldCase.map, map_ite_ok]

@[simp] theorem limitedCase_map (limit : Nat) (set : Bytes → σ) :
    (limitedCase name limit set).map f = limitedCase name limit fun d => f (set d) := by
  simp only [limitedCase, FieldCase.map, map_ite_ok]

@[simp] theorem intCase_map (set : Int → σ) :
    (intCase name set).map f = intCase name fun v => f (set v) := by
  simp only [intCase, limitedCase_map]

@[simp] theorem lenientHashCase_map (t : σ) (set : ByteArr 32 → σ) :
    (lenientHashCase name t set).map f = lenientHashCase name (f t) fun h => f (set h) := by
  simp only [lenientHashCase, FieldCase.map, Except.map, apply_ite f]

@[simp] theorem addressCase_map (set : ByteArr 20 → σ) :
    (addressCase name set).map f = addressCase name fun a => f (set a) := by
  simp only [addressCase, FieldCase.map, map_ite_ok]

@[simp] theorem elementCase_map (limit maxLen : Nat) (l : List Bytes) (set : List Bytes → σ) :
    (elementCase name limit maxLen l set).map f =
      elementCase name limit maxLen l fun l => f (set l) := by
  simp only [elementCase, FieldCase.map]
  congr 1
  funext d
  split_ifs <;> rfl

end Map

end Cases

end Qau
