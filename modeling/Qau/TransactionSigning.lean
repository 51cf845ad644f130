import Qau.TransactionRoundTrip

/-!
# What a signing hash binds

Two transactions from the wire with one signing hash have one signing
message, if no other message has that hash. The message is the encoding of
`signingCopy`, so it determines the transaction in all fields but the
signatures and the public key, provided it was written from all of them.
It was not when the transaction has multi-signature or privacy fields that
its type does not carry, or an empty element in a privacy list: the decoder
takes such fields and the encoder leaves them out (`Plain`).

For the direction from the hash to the fields, `DecodedLimits` collects
what every decoded transaction satisfies. For the converse, dropping the
unwritten fields from an accepted byte string (`keepField`) gives another
accepted byte string whose transaction (`stripped`) has the same message.
-/

namespace Qau

variable {d : Bytes} {l : List Bytes} {n : Nat} {a b s s' tx : Transaction} {t : TxType}
  {v : WireValue} {fs : List WireField}

/-- `tx` was read from the wire. -/
def Decoded (tx : Transaction) : Prop := ∃ data, unmarshalTransaction data = .ok tx

/-! ## Limits of decoded transactions -/

/-- What the decoder guarantees, whatever the type. -/
structure DecodedLimits (tx : Transaction) : Prop where
  base : BaseLimits tx
  bitmap : tx.multiSigSignerBitmap.length ≤ 32
  required_nonneg : 0 ≤ tx.multiSigRequiredSigs
  required_le : tx.multiSigRequiredSigs ≤ maxInt32
  total_nonneg : 0 ≤ tx.multiSigTotalSigners
  total_le : tx.multiSigTotalSigners ≤ maxInt32
  privacy : PrivacyLimits tx.toPrivacyFields

theorem length_append_singleton_le (h : l.length < n) : (l ++ [d]).length ≤ n := by
  rw [List.length_append, List.length_singleton]
  omega

theorem txSwitch_limits (h : DecodedLimits s) (n : Nat) :
    Yields (txSwitch s n) s DecodedLimits := by
  unfold txSwitch
  split
  · exact yields_bounded fun x _ => { h with base := { h.base with } }
  · refine yields_varint fun x s' hx => ?_
    split_ifs at hx with h1 h2
    obtain rfl := Except.ok.inj hx
    exact { h with base := { h.base with type := h2 } }
  · exact yields_uint64 fun x => { h with base := { h.base with } }
  · exact yields_address fun a => { h with base := { h.base with } }
  · exact yields_address fun a => { h with base := { h.base with } }
  · exact yields_int fun x h0 hx => { h with base := { h.base with value := intFits_some h0 hx } }
  · exact yields_uint64 fun x => { h with base := { h.base with } }
  · exact yields_int fun x h0 hx =>
      { h with base := { h.base with gasPrice := intFits_some h0 hx } }
  · exact yields_limited fun d hd => { h with base := { h.base with data := hd } }
  · exact yields_limited fun d hd => { h with base := { h.base with signature := hd } }
  · exact yields_limited fun d hd => { h with base := { h.base with publicKey := hd } }
  · exact yields_lenientHash h fun a => { h with base := { h.base with } }
  · refine yields_varint fun x s' hx => ?_
    split_ifs at hx
    obtain rfl := Except.ok.inj hx
    exact { h with base := { h.base with } }
  · exact yields_int fun x h0 hx =>
      { h with base := { h.base with maxFeePerGas := intFits_some h0 hx } }
  · exact yields_int fun x h0 hx =>
      { h with base := { h.base with maxPriorityFeePerGas := intFits_some h0 hx } }
  · exact yields_int fun x h0 hx =>
      { h with base := { h.base with maxFeePerBlobGas := intFits_some h0 hx } }
  · refine yields_bytesWith fun d s' hready hd => ?_
    split_ifs at hready with hcount
    split_ifs at hd
    obtain rfl := Except.ok.inj hd
    refine { h with base := { h.base with blobs := ?_ } }
    rw [List.length_append, List.length_singleton]
    omega
  · exact yields_uint64 fun x => { h with base := { h.base with } }
  · exact yields_element fun d _ _ => { h with base := { h.base with } }
  · exact yields_limited fun d hd => { h with base := { h.base with }, bitmap := hd }
  · exact yields_bounded fun x hx =>
      { h with
        base := { h.base with }
        required_nonneg := Int.natCast_nonneg _
        required_le := Int.ofNat_le.mpr hx }
  · exact yields_bounded fun x hx =>
      { h with
        base := { h.base with }
        total_nonneg := Int.natCast_nonneg _
        total_le := Int.ofNat_le.mpr hx }
  · exact yields_limited fun d hd =>
      { h with base := { h.base with }, privacy := { h.privacy with ephemeral := hd } }
  · exact yields_lenientHash h fun a =>
      { h with base := { h.base with }, privacy := { h.privacy with } }
  · exact yields_element fun d hl hd =>
      { h with
        base := { h.base with }
        privacy :=
          { h.privacy with
            commitmentCount := length_append_singleton_le hl
            commitments := forall_mem_snoc h.privacy.commitments hd } }
  · exact yields_element fun d hl hd =>
      { h with
        base := { h.base with }
        privacy :=
          { h.privacy with
            amountCount := length_append_singleton_le hl
            amounts := forall_mem_snoc h.privacy.amounts hd } }
  · exact yields_element fun d hl hd =>
      { h with
        base := { h.base with }
        privacy :=
          { h.privacy with
            proofCount := length_append_singleton_le hl
            proofs := forall_mem_snoc h.privacy.proofs hd } }
  · exact yields_limited fun d hd =>
      { h with base := { h.base with }, privacy := { h.privacy with balanceProof := hd } }
  · exact yields_lenientHash h fun a =>
      { h with base := { h.base with }, privacy := { h.privacy with } }
  · exact yields_unknown h

theorem freshTransaction_limits : DecodedLimits freshTransaction where
  base :=
    { type := rfl
      value := intFits_some (by decide) (by decide)
      gasPrice := intFits_some (by decide) (by decide)
      signature := Nat.zero_le _
      publicKey := Nat.zero_le _
      data := Nat.zero_le _
      maxFeePerGas := fun x hx => nomatch hx
      maxPriorityFeePerGas := fun x hx => nomatch hx
      maxFeePerBlobGas := fun x hx => nomatch hx
      blobs := Nat.zero_le _ }
  bitmap := Nat.zero_le _
  required_nonneg := le_refl 0
  required_le := by decide
  total_nonneg := le_refl 0
  total_le := by decide
  privacy := by constructor <;> simp [freshTransaction]

theorem unmarshalTransaction_ok_iff {data : Bytes} : unmarshalTransaction data = .ok tx ↔
      ∃ fs : List WireField, data = encodeFields fs ∧ (∀ f ∈ fs, f.Fits) ∧ fs ≠ [] ∧
        (encodeFields fs).length ≤ maxTransactionSize ∧ Distinct txRepeatable [] fs ∧
        fs.foldlM (applyField txSwitch) freshTransaction = .ok tx ∧
        tx.multiSigRequiredSigs ≤ tx.multiSigTotalSigners := by
  have hbudget : maxTransactionSize ≤ maxWireTotalSize := by decide
  constructor
  · intro h
    unfold unmarshalTransaction at h
    split_ifs at h with h0 hsize
    split at h
    · cases h
    · rename_i tx' hdec
      split_ifs at h with hreq
      obtain rfl := Except.ok.inj h
      obtain ⟨fs, hfits, rfl, hrun⟩ :=
        (decodeMessage_ok_iff txRepeatable txSwitch (by omega)).mp hdec
      obtain ⟨hdist, hfold⟩ := (runFields_ok_iff txRepeatable txSwitch).mp hrun
      refine ⟨fs, rfl, hfits, ?_, by omega, hdist, hfold, Int.not_lt.mp hreq⟩
      rintro rfl
      exact h0 rfl
  · rintro ⟨fs, rfl, hfits, hne, hsize, hdist, hfold, hreq⟩
    have h0 : (encodeFields fs).length ≠ 0 := by
      rw [Ne, List.length_eq_zero_iff, encodeFields_eq_nil]
      exact hne
    have hdec := (decodeMessage_ok_iff txRepeatable txSwitch (hsize.trans hbudget)).mpr
      ⟨fs, hfits, rfl, (runFields_ok_iff txRepeatable txSwitch).mpr ⟨hdist, hfold⟩⟩
    rw [unmarshalTransaction, if_neg h0, if_neg (Nat.not_lt.mpr hsize), hdec]
    simp only [if_neg (Int.not_lt.mpr hreq)]

theorem Decoded.limits (h : Decoded tx) : DecodedLimits tx := by
  obtain ⟨data, h⟩ := h
  obtain ⟨fs, -, hfits, -, -, -, hfold, -⟩ := unmarshalTransaction_ok_iff.mp h
  exact foldlM_applyField_invariant txSwitch (fun s f _ hs => txSwitch_limits hs f.num f.value)
    hfits freshTransaction_limits hfold

/-! ## From the message to the fields -/

/-- Everything in the fields of a signing copy was written: no fields of
another type, no empty element in a privacy list. -/
structure Plain (tx : Transaction) : Prop where
  multiSig : tx.type ≠ TxType.multiSig →
    tx.multiSigSignerBitmap = [] ∧ tx.multiSigRequiredSigs = 0 ∧ tx.multiSigTotalSigners = 0
  privacy : tx.type ≠ TxType.privacy → tx.toPrivacyFields = {}
  elements : tx.type = TxType.privacy → [] ∉ tx.privacyCommitments ∧
    [] ∉ tx.privacyEncryptedAmounts ∧ [] ∉ tx.privacyRangeProofs

theorem fits_baseGroups (h : BaseLimits tx) : ∀ g ∈ baseGroups tx, ∀ v ∈ g.values, v.Fits := by
  intro g hg
  simp only [baseGroups, List.mem_cons, List.not_mem_nil, or_false] at hg
  rcases hg with rfl | rfl | rfl | rfl | rfl | rfl | rfl | rfl | rfl | rfl | rfl | rfl | rfl | rfl |
    rfl | rfl | rfl | rfl
  · exact fits_encodeUint32Field _
  · exact fits_encodeUint32Field _
  · exact fits_encodeUint64Field _
  · exact fits_encodeBytesField (by rw [tx.fromAddr.toList_length]; decide)
  · cases tx.toAddr with
    | none => simp [encodeToField]
    | some a => exact fits_encodeBytesField (by rw [a.toList_length]; decide)
  · exact h.value.bytes_le
  · exact fits_encodeUint64Field _
  · exact h.gasPrice.bytes_le
  · exact fits_encodeBytesField (h.data.trans (by decide))
  · simpa [encodeBytesFieldAlways, WireValue.Fits] using h.signature.trans (by decide)
  · simpa [encodeBytesFieldAlways, WireValue.Fits] using h.publicKey.trans (by decide)
  · exact fits_encodeHashField _
  · simp [encodeUint64FieldAlways, WireValue.Fits]
  · exact h.maxFeePerGas.bytes_le
  · exact h.maxPriorityFeePerGas.bytes_le
  · exact h.maxFeePerBlobGas.bytes_le
  · intro v hv
    obtain ⟨a, -, hv⟩ := List.mem_flatMap.mp hv
    exact fits_encodeBytesField (by rw [a.toList_length]; decide) v hv
  · exact fits_encodeUint64Field _

theorem fits_privacyGroups {p : PrivacyFields} (h : PrivacyLimits p) :
    ∀ g ∈ privacyGroups p, ∀ v ∈ g.values, v.Fits := by
  intro g hg
  simp only [privacyGroups, List.mem_cons, List.not_mem_nil, or_false] at hg
  rcases hg with rfl | rfl | rfl | rfl | rfl | rfl | rfl
  · exact fits_encodeBytesField (h.ephemeral.trans (by decide))
  · exact fits_encodeHashField _
  · exact fits_flatMap h.commitments (by decide)
  · exact fits_flatMap h.amounts (by decide)
  · exact fits_flatMap h.proofs (by decide)
  · exact fits_encodeBytesField (h.balanceProof.trans (by decide))
  · exact fits_encodeHashField _

theorem signingCopy_limits (h : DecodedLimits tx) : DecodedLimits (signingCopy tx) := by
  have hint : ∀ {v : Option Int}, IntFits v → IntFits (normalizeBigInt v) := by
    intro v hv
    cases v with
    | none => exact intFits_some (by decide) (by decide)
    | some x => exact hv
  exact
    { h with
      base :=
        { h.base with
          value := hint h.base.value
          gasPrice := hint h.base.gasPrice
          maxFeePerGas := hint h.base.maxFeePerGas
          maxPriorityFeePerGas := hint h.base.maxPriorityFeePerGas
          maxFeePerBlobGas := hint h.base.maxFeePerBlobGas
          signature := Nat.zero_le _
          publicKey := Nat.zero_le _ } }

theorem carriedPrivacy_limits (h : DecodedLimits tx) : PrivacyLimits (carriedPrivacy tx) := by
  unfold carriedPrivacy
  split
  · exact h.privacy
  · constructor <;> simp

theorem fits_signingCopy (h : DecodedLimits tx) :
    ∀ f ∈ groupFields (allGroups (signingCopy tx)), f.Fits := by
  have hnum : ∀ n ∈ (allGroups (signingCopy tx)).map WireGroup.num, n < 2 ^ 61 := by
    rw [allGroups_nums]
    decide
  have hcopy := signingCopy_limits h
  intro f hf
  obtain ⟨g, hg, hfg, hv⟩ := mem_groupFields.mp hf
  refine ⟨hfg ▸ hnum _ (List.mem_map_of_mem hg), ?_⟩
  rcases List.mem_append.mp hg with hg | hg
  · rcases List.mem_append.mp hg with hg | hg
    · exact fits_baseGroups hcopy.base g hg _ hv
    · have hbitmap : (carriedMultiSig (signingCopy tx)).multiSigSignerBitmap.length ≤ 32 := by
        unfold carriedMultiSig
        split
        · exact hcopy.bitmap
        · exact Nat.zero_le _
      have hsigs : (carriedMultiSig (signingCopy tx)).multiSigSignatures = [] := by
        unfold carriedMultiSig
        split <;> rfl
      simp only [multiSigGroups, hsigs, List.mem_cons, List.not_mem_nil, or_false] at hg
      rcases hg with rfl | rfl | rfl | rfl
      · simp at hv
      · exact fits_encodeBytesField (hbitmap.trans (by decide)) _ hv
      · exact fits_encodeUint32Field _ _ hv
      · exact fits_encodeUint32Field _ _ hv
  · exact fits_privacyGroups (carriedPrivacy_limits hcopy) g hg _ hv

/-- Equal signing messages were written group by group alike. -/
theorem allGroups_eq_of_message (ha : DecodedLimits a) (hb : DecodedLimits b)
    (h : signingMessage a = signingMessage b) :
    allGroups (signingCopy a) = allGroups (signingCopy b) := by
  have hbytes := List.append_cancel_left h
  rw [marshalTransaction, marshalTransaction, groupFields_txGroups, groupFields_txGroups] at hbytes
  exact values_eq_of_groupFields_eq (by rw [allGroups_nums, allGroups_nums])
    (by rw [allGroups_nums]; decide)
    (encodeFields_inj (fits_signingCopy ha) (fits_signingCopy hb) hbytes)

theorem normalize_inj {v w : Option Int} (hv : IntFits v) (hw : IntFits w)
    (h : encodeIntField (normalizeBigInt v) = encodeIntField (normalizeBigInt w)) :
    normalizeBigInt v = normalizeBigInt w := by
  have hpos : ∀ {u : Option Int}, IntFits u → 0 ≤ u.getD 0 := by
    intro u hu
    cases u with
    | none => exact le_refl 0
    | some x => exact (hu x rfl).1
  exact congrArg some (encodeIntField_inj (hpos hv) (hpos hw) h)

theorem encodeToField_inj {a b : Option Address} (h : encodeToField a = encodeToField b) :
    a = b := by
  have hne : ∀ c : Address, encodeBytesField c.toList ≠ [] := by
    intro c
    rw [encodeBytesField_toList (by decide)]
    exact List.cons_ne_nil _ _
  match a, b, h with
  | none, none, _ => rfl
  | none, some b, h => exact absurd h.symm (hne b)
  | some a, none, h => exact absurd h (hne a)
  | some a, some b, h => exact congrArg some (List.Vector.eq _ _ (encodeBytesField_inj h))

theorem flatMap_hashes_inj {a b : List Hash} (h : (a.flatMap fun x => encodeBytesField x.toList) =
      b.flatMap fun x => encodeBytesField x.toList) : a = b := by
  have hmap : ∀ l : List Hash, (l.flatMap fun x => encodeBytesField x.toList) =
      l.map fun x => .bytes x.toList := by
    intro l
    rw [List.map_eq_flatMap]
    exact congrArg (l.flatMap ·) (funext fun x => encodeBytesField_toList (by decide) x)
  rw [hmap, hmap] at h
  exact List.map_injective_iff.mpr
    (fun x y hxy => List.Vector.eq _ _ (WireValue.bytes.inj hxy)) h

theorem writtenElements_eq_of_flatMap {a b : List Bytes}
    (h : a.flatMap encodeBytesField = b.flatMap encodeBytesField) :
    writtenElements a = writtenElements b := by
  have hmap : ∀ l : List Bytes, l.flatMap encodeBytesField = (writtenElements l).map .bytes := by
    intro l
    induction l with
    | nil => rfl
    | cons x l ih =>
      rw [List.flatMap_cons, ih, writtenElements, writtenElements]
      cases x with
      | nil => rw [List.filter_cons_of_neg (by simp)]; rfl
      | cons y x =>
        rw [List.filter_cons_of_pos (by simp), encodeBytesField_of_ne (List.cons_ne_nil y x)]
        rfl
  rw [hmap, hmap] at h
  exact List.map_injective_iff.mpr (fun x y hxy => WireValue.bytes.inj hxy) h

theorem baseGroups_inj (ha : BaseLimits a) (hb : BaseLimits b)
    (h : baseGroups (signingCopy a) = baseGroups (signingCopy b)) :
    { signingCopy a with toMultiSigFields := {}, toPrivacyFields := {} } =
      { signingCopy b with toMultiSigFields := {}, toPrivacyFields := {} } := by
  simp only [baseGroups, List.cons.injEq, WireGroup.mk.injEq, true_and, and_true] at h
  obtain ⟨h1, h2, h3, h4, h5, h6, h7, h8, h9, -, -, -, h13, h14, h15, h16, h17, h18⟩ := h
  have e2 : a.type = b.type := by
    have := congrArg UInt32.toNat (encodeUint32Field_inj h2)
    simpa [signingCopy, UInt8.toNat_inj] using this
  have e13 : a.chainID = b.chainID := by
    simpa [signingCopy, encodeUint64FieldAlways] using h13
  simp only [Transaction.mk.injEq, true_and]
  exact ⟨encodeUint32Field_inj h1, e2, encodeUint64Field_inj h3,
    List.Vector.eq _ _ (encodeBytesField_inj h4), encodeToField_inj h5,
    normalize_inj ha.value hb.value h6, encodeUint64Field_inj h7,
    normalize_inj ha.gasPrice hb.gasPrice h8, encodeBytesField_inj h9, rfl, rfl, e13,
    normalize_inj ha.maxFeePerGas hb.maxFeePerGas h14,
    normalize_inj ha.maxPriorityFeePerGas hb.maxPriorityFeePerGas h15,
    normalize_inj ha.maxFeePerBlobGas hb.maxFeePerBlobGas h16, flatMap_hashes_inj h17,
    encodeUint64Field_inj h18, rfl⟩

theorem toUint32_inj {x y : Int} (hx0 : 0 ≤ x) (hx : x ≤ maxInt32) (hy0 : 0 ≤ y)
    (hy : y ≤ maxInt32) (h : toUint32 x = toUint32 y) : x = y := by
  rw [← toUint32_toNat hx0 hx, h, toUint32_toNat hy0 hy]

theorem privacyGroups_inj {p q : PrivacyFields} (h : privacyGroups p = privacyGroups q) :
    writtenPrivacy p = writtenPrivacy q := by
  simp only [privacyGroups, List.cons.injEq, WireGroup.mk.injEq, true_and, and_true] at h
  obtain ⟨h30, h31, h32, h33, h34, h35, h36⟩ := h
  simp only [writtenPrivacy, PrivacyFields.mk.injEq]
  exact ⟨encodeBytesField_inj h30, encodeHashField_inj h31, writtenElements_eq_of_flatMap h32,
    writtenElements_eq_of_flatMap h33, writtenElements_eq_of_flatMap h34, encodeBytesField_inj h35,
    encodeHashField_inj h36⟩

theorem multiSigGroups_inj (ha : DecodedLimits a) (hb : DecodedLimits b)
    (h : multiSigGroups (signingCopy a).toMultiSigFields =
      multiSigGroups (signingCopy b).toMultiSigFields) :
    (signingCopy a).toMultiSigFields = (signingCopy b).toMultiSigFields := by
  simp only [multiSigGroups, List.cons.injEq, WireGroup.mk.injEq, true_and, and_true] at h
  obtain ⟨-, h21, h22, h23⟩ := h
  simp only [signingCopy, MultiSigFields.mk.injEq, true_and]
  exact ⟨encodeBytesField_inj h21,
    toUint32_inj ha.required_nonneg ha.required_le hb.required_nonneg hb.required_le
      (encodeUint32Field_inj h22),
    toUint32_inj ha.total_nonneg ha.total_le hb.total_nonneg hb.total_le
      (encodeUint32Field_inj h23)⟩

theorem Plain.carriedMultiSig_eq (h : Plain tx) :
    carriedMultiSig (signingCopy tx) = (signingCopy tx).toMultiSigFields := by
  by_cases ht : tx.type = TxType.multiSig
  · exact if_pos ht
  · obtain ⟨h1, h2, h3⟩ := h.multiSig ht
    refine (if_neg ht).trans ?_
    simp only [signingCopy, h1, h2, h3]

theorem Plain.writtenPrivacy_eq (h : Plain tx) :
    writtenPrivacy (carriedPrivacy (signingCopy tx)) = (signingCopy tx).toPrivacyFields := by
  by_cases ht : tx.type = TxType.privacy
  · rw [show carriedPrivacy (signingCopy tx) = (signingCopy tx).toPrivacyFields from if_pos ht]
    exact writtenPrivacy_eq_self.mpr (h.elements ht)
  · rw [show carriedPrivacy (signingCopy tx) = {} from if_neg ht]
    exact (h.privacy ht).symm

theorem signingCopy_eq_of_message (ha : DecodedLimits a) (hb : DecodedLimits b) (hpa : Plain a)
    (hpb : Plain b) (h : signingMessage a = signingMessage b) : signingCopy a = signingCopy b := by
  have hgroups := allGroups_eq_of_message ha hb h
  obtain ⟨hinit, hprivacy⟩ := List.append_inj' hgroups rfl
  obtain ⟨hbase, hmultiSig⟩ := List.append_inj' hinit rfl
  have ebase := baseGroups_inj ha.base hb.base hbase
  rw [hpa.carriedMultiSig_eq, hpb.carriedMultiSig_eq] at hmultiSig
  have emultiSig := multiSigGroups_inj ha hb hmultiSig
  have eprivacy := privacyGroups_inj hprivacy
  rw [hpa.writtenPrivacy_eq, hpb.writtenPrivacy_eq] at eprivacy
  calc signingCopy a
      = { { signingCopy a with toMultiSigFields := {}, toPrivacyFields := {} } with
          toMultiSigFields := (signingCopy a).toMultiSigFields
          toPrivacyFields := (signingCopy a).toPrivacyFields } := rfl
    _ = { { signingCopy b with toMultiSigFields := {}, toPrivacyFields := {} } with
          toMultiSigFields := (signingCopy b).toMultiSigFields
          toPrivacyFields := (signingCopy b).toPrivacyFields } := by
        rw [ebase, emultiSig, eprivacy]
    _ = signingCopy b := rfl

/-! ## Dropping what is not written -/

/-- The transaction without the fields that a message of type `t` leaves out. -/
def stripped (t : TxType) (tx : Transaction) : Transaction :=
  { tx with
    toMultiSigFields := if t = TxType.multiSig then tx.toMultiSigFields else {}
    toPrivacyFields := if t = TxType.privacy then writtenPrivacy tx.toPrivacyFields else {} }

/-- The fields a message of type `t` has in its encoding. -/
def keepField (t : TxType) (f : WireField) : Bool :=
  match f.num with
  | 20 | 21 | 22 | 23 => t = TxType.multiSig
  | 30 | 31 | 35 | 36 => t = TxType.privacy
  | 32 | 33 | 34 => t = TxType.privacy ∧ f.value ≠ .bytes []
  | _ => true

theorem writtenElements_append_empty (l : List Bytes) :
    writtenElements (l ++ [[]]) = writtenElements l := by
  simp [writtenElements]

theorem writtenElements_append_of_ne (hd : d ≠ []) :
    writtenElements (l ++ [d]) = writtenElements l ++ [d] := by
  simp [writtenElements, hd]

theorem writtenElements_length_le (l : List Bytes) : (writtenElements l).length ≤ l.length :=
  List.length_filter_le _ l

/-- A kept field outside the privacy lists does to the stripped transaction
what it does to the transaction. -/
theorem txSwitch_stripped (hm : n ∈ [20, 21, 22, 23] → t = TxType.multiSig)
    (hp : n ∈ [30, 31, 35, 36] → t = TxType.privacy) (hl : n ∉ [32, 33, 34]) (s : Transaction) :
    txSwitch (stripped t s) n = (txSwitch s n).map (stripped t) := by
  fun_cases txSwitch s n
  case case2 =>
    simp only [txSwitch, FieldCase.map]
    congr 1
    funext v
    split_ifs <;> rfl
  case case13 | case17 =>
    simp only [txSwitch, FieldCase.map, map_ite_ok]
    rfl
  case case19 | case20 | case21 | case22 =>
    obtain rfl := hm (by simp)
    simp only [elementCase_map, limitedCase_map, boundedCase_map]
    rfl
  case case23 | case24 | case28 | case29 =>
    obtain rfl := hp (by simp)
    simp only [limitedCase_map, lenientHashCase_map]
    rfl
  case case25 | case26 | case27 => simp at hl
  case case30 => simp [txSwitch, FieldCase.map, *]
  all_goals
    simp only [uint64Case_map, boundedCase_map, limitedCase_map, intCase_map, lenientHashCase_map,
      addressCase_map]
    rfl

/-- A field of another type leaves the stripped transaction alone. -/
theorem stripped_dropped (h : n ∈ [20, 21, 22, 23] ∧ t ≠ TxType.multiSig ∨
      n ∈ [30, 31, 32, 33, 34, 35, 36] ∧ t ≠ TxType.privacy) (s : Transaction) :
    Yields (txSwitch s n) s fun s' => stripped t s' = stripped t s := by
  rcases h with ⟨hn, ht⟩ | ⟨hn, ht⟩
  · simp only [List.mem_cons, List.not_mem_nil, or_false] at hn
    rcases hn with rfl | rfl | rfl | rfl
    · exact yields_element fun d _ _ => by simp only [stripped, if_neg ht]
    · exact yields_limited fun d _ => by simp only [stripped, if_neg ht]
    · exact yields_bounded fun x _ => by simp only [stripped, if_neg ht]
    · exact yields_bounded fun x _ => by simp only [stripped, if_neg ht]
  · simp only [List.mem_cons, List.not_mem_nil, or_false] at hn
    rcases hn with rfl | rfl | rfl | rfl | rfl | rfl | rfl
    · exact yields_limited fun d _ => by simp only [stripped, if_neg ht]
    · exact yields_lenientHash rfl fun a => by simp only [stripped, if_neg ht]
    · exact yields_element fun d _ _ => by simp only [stripped, if_neg ht]
    · exact yields_element fun d _ _ => by simp only [stripped, if_neg ht]
    · exact yields_element fun d _ _ => by simp only [stripped, if_neg ht]
    · exact yields_limited fun d _ => by simp only [stripped, if_neg ht]
    · exact yields_lenientHash rfl fun a => by simp only [stripped, if_neg ht]

/-- One more element of a list: an empty one changes nothing that is
written, another one is appended to what is written. -/
theorem applyCase_element_written {σ : Type} {name : String} {limit maxLen : Nat} {s s' r : σ}
    {f g : List Bytes → σ} {p : σ → σ} (hf : ∀ l, p (f l) = g (writtenElements l)) (hs : f l = s)
    (hr : p s = r) (h : applyCase (elementCase name limit maxLen l f) s v = .ok s') :
    (v = .bytes [] → p s' = r) ∧
      (v ≠ .bytes [] →
        applyCase (elementCase name limit maxLen (writtenElements l) g) r v = .ok (p s')) := by
  unfold elementCase at h ⊢
  cases v with
  | bytes d =>
    simp only [applyCase, refused] at h ⊢
    split at h
    · cases h
    · rename_i s1 hd
      obtain rfl := Except.ok.inj h
      split_ifs at hd with hcount hlen
      obtain rfl := Except.ok.inj hd
      constructor
      · intro hv
        obtain rfl := WireValue.bytes.inj hv
        rw [hf, writtenElements_append_empty, ← hf, hs, hr]
      · intro hv
        have hne : d ≠ [] := fun h => hv (congrArg WireValue.bytes h)
        have hle := writtenElements_length_le l
        rw [if_neg (by omega), if_neg hlen, hf, writtenElements_append_of_ne hne]
  | varint x => cases h
  | fixed64 b => cases h
  | fixed32 b => cases h

/-- One element of a privacy list, in a message that carries it. -/
theorem strip_element (hl : n ∈ [32, 33, 34]) (h : applyCase (txSwitch s n) s v = .ok s') :
    (v = .bytes [] → stripped TxType.privacy s' = stripped TxType.privacy s) ∧
      (v ≠ .bytes [] → applyCase (txSwitch (stripped TxType.privacy s) n)
        (stripped TxType.privacy s) v = .ok (stripped TxType.privacy s')) := by
  simp only [List.mem_cons, List.not_mem_nil, or_false] at hl
  rcases hl with rfl | rfl | rfl
  · exact applyCase_element_written (s := s) (l := s.privacyCommitments) (p := stripped TxType.privacy)
      (f := fun l => { s with privacyCommitments := l }) (g := fun l =>
        { stripped TxType.privacy s with privacyCommitments := l }) (fun _ => rfl) rfl rfl h
  · exact applyCase_element_written (s := s) (l := s.privacyEncryptedAmounts) (p := stripped TxType.privacy)
      (f := fun l => { s with privacyEncryptedAmounts := l }) (g := fun l =>
        { stripped TxType.privacy s with privacyEncryptedAmounts := l }) (fun _ => rfl) rfl rfl h
  · exact applyCase_element_written (s := s) (l := s.privacyRangeProofs) (p := stripped TxType.privacy)
      (f := fun l => { s with privacyRangeProofs := l }) (g := fun l =>
        { stripped TxType.privacy s with privacyRangeProofs := l }) (fun _ => rfl) rfl rfl h

theorem strip_step {f : WireField} (h : applyField txSwitch s f = .ok s') :
    (keepField t f = true → applyField txSwitch (stripped t s) f = .ok (stripped t s')) ∧
      (keepField t f = false → stripped t s' = stripped t s) := by
  obtain ⟨n, v⟩ := f
  have hcommute : (n ∈ [20, 21, 22, 23] → t = TxType.multiSig) →
      (n ∈ [30, 31, 35, 36] → t = TxType.privacy) → n ∉ [32, 33, 34] →
      applyField txSwitch (stripped t s) ⟨n, v⟩ = .ok (stripped t s') := by
    intro hm hp hl
    rw [applyField, txSwitch_stripped hm hp hl, applyCase_map]
    exact congrArg (Except.map (stripped t)) h
  fun_cases keepField t ⟨n, v⟩
  case case1 hn | case2 hn | case3 hn | case4 hn =>
    cases hn
    rw [decide_eq_true_eq, decide_eq_false_iff_not]
    exact ⟨fun ht => hcommute (fun _ => ht) (by simp) (by simp),
      fun ht => stripped_dropped (.inl ⟨by simp, ht⟩) s v s' h⟩
  case case5 hn | case6 hn | case7 hn | case8 hn =>
    cases hn
    rw [decide_eq_true_eq, decide_eq_false_iff_not]
    exact ⟨fun ht => hcommute (by simp) (fun _ => ht) (by simp),
      fun ht => stripped_dropped (.inr ⟨by simp, ht⟩) s v s' h⟩
  case case9 hn | case10 hn | case11 hn =>
    cases hn
    rw [decide_eq_true_eq, decide_eq_false_iff_not]
    constructor
    · rintro ⟨rfl, hv⟩
      exact (strip_element (by simp) h).2 hv
    · intro hdrop
      by_cases ht : t = TxType.privacy
      · subst ht
        exact (strip_element (by simp) h).1 (not_not.mp fun hv => hdrop ⟨rfl, hv⟩)
      · exact stripped_dropped (.inr ⟨by simp, ht⟩) s v s' h
  case case12 =>
    exact ⟨fun _ => hcommute (by simp_all) (by simp_all) (by simp_all), by simp⟩

/-- The kept fields of an accepted message make the stripped transaction. -/
theorem strip_run (h : fs.foldlM (applyField txSwitch) s = .ok s') :
    (fs.filter (keepField t)).foldlM (applyField txSwitch) (stripped t s) =
      .ok (stripped t s') := by
  induction fs generalizing s with
  | nil =>
    obtain rfl := Except.ok.inj h
    rfl
  | cons f fs ih =>
    rw [List.foldlM_cons] at h
    cases happly : applyField txSwitch s f with
    | error e => simp [happly, bind, Except.bind] at h
    | ok s1 =>
      rw [happly] at h
      have hstep := strip_step (t := t) happly
      cases hkeep : keepField t f with
      | true =>
        rw [List.filter_cons_of_pos hkeep, List.foldlM_cons, hstep.1 hkeep]
        exact ih h
      | false =>
        rw [List.filter_cons_of_neg (by simp [hkeep]), ← hstep.2 hkeep]
        exact ih h

theorem stripped_fresh (t : TxType) : stripped t freshTransaction = freshTransaction := by
  unfold stripped
  split_ifs <;> rfl

theorem length_encodeFields_filter_le (p : WireField → Bool) (fs : List WireField) :
    (encodeFields (fs.filter p)).length ≤ (encodeFields fs).length := by
  rw [encodeFields, encodeFields, List.length_flatMap, List.length_flatMap]
  exact (List.filter_sublist.map _).sum_le_sum fun _ _ => Nat.zero_le _

theorem Distinct.filter {repeatable : Nat → Bool} {seen : List Nat}
    (h : Distinct repeatable seen fs) (p : WireField → Bool) :
    Distinct repeatable seen (fs.filter p) :=
  ⟨fun f hf => h.1 f (List.mem_of_mem_filter hf), h.2.sublist List.filter_sublist⟩

theorem decoded_fresh : Decoded freshTransaction := ⟨[8, 0], by decide +kernel⟩

theorem decoded_stripped (h : Decoded tx) : Decoded (stripped tx.type tx) := by
  obtain ⟨data, h⟩ := h
  obtain ⟨fs, -, hfits, -, hsize, hdist, hfold, hreq⟩ := unmarshalTransaction_ok_iff.mp h
  have hrun := strip_run (t := tx.type) hfold
  rw [stripped_fresh] at hrun
  by_cases hnil : fs.filter (keepField tx.type) = []
  · rw [hnil] at hrun
    rw [← Except.ok.inj hrun]
    exact decoded_fresh
  · refine ⟨_, unmarshalTransaction_ok_iff.mpr ⟨_, rfl,
      fun f hf => hfits f (List.mem_of_mem_filter hf), hnil,
      (length_encodeFields_filter_le _ fs).trans hsize, hdist.filter _, hrun, ?_⟩⟩
    by_cases ht : tx.type = TxType.multiSig
    · simpa only [stripped, if_pos ht] using hreq
    · simp only [stripped, if_neg ht, le_refl]

theorem signingMessage_stripped (tx : Transaction) :
    signingMessage (stripped tx.type tx) = signingMessage tx := by
  refine congrArg (signingDomainSeparator ++ ·) (marshalTransaction_congr rfl ?_ ?_)
  · by_cases ht : tx.type = TxType.multiSig <;> simp [carriedMultiSig, signingCopy, stripped, ht]
  · by_cases ht : tx.type = TxType.privacy <;> simp [carriedPrivacy, signingCopy, stripped, ht]

theorem plain_stripped (tx : Transaction) : Plain (stripped tx.type tx) where
  multiSig ht := by
    have ht : tx.type ≠ TxType.multiSig := ht
    simp [stripped, ht]
  privacy ht := by
    have ht : tx.type ≠ TxType.privacy := ht
    simp [stripped, ht]
  elements ht := by
    have ht : tx.type = TxType.privacy := ht
    simp [stripped, ht, writtenPrivacy, writtenElements]

/-- Only a plain transaction agrees with what is left of it. -/
theorem plain_of_stripped (h : signingCopy (stripped tx.type tx) = signingCopy tx) : Plain tx := by
  have hprivacy := congrArg Transaction.toPrivacyFields h
  constructor
  · intro ht
    have hmultiSig := congrArg Transaction.toMultiSigFields h
    simp only [signingCopy, stripped, if_neg ht, MultiSigFields.mk.injEq, true_and] at hmultiSig
    exact ⟨hmultiSig.1.symm, hmultiSig.2.1.symm, hmultiSig.2.2.symm⟩
  · intro ht
    simp only [signingCopy, stripped, if_neg ht] at hprivacy
    exact hprivacy.symm
  · intro ht
    simp only [signingCopy, stripped, if_pos ht] at hprivacy
    exact writtenPrivacy_eq_self.mp hprivacy

/-- The signing hash of a decoded transaction binds it among the plain ones
exactly when it is plain itself. -/
theorem signingHash_binds_iff (sha3 : Bytes → Hash) {tx : Transaction} (htx : Decoded tx)
    (hcoll : ∀ tx', sha3 (signingMessage tx') = sha3 (signingMessage tx) →
      signingMessage tx' = signingMessage tx) :
    (∀ tx', Decoded tx' → Plain tx' → signingHash sha3 tx' = signingHash sha3 tx →
      signingCopy tx' = signingCopy tx) ↔ Plain tx := by
  constructor
  · intro h
    refine plain_of_stripped (h _ (decoded_stripped htx) (plain_stripped tx) ?_)
    rw [signingHash, signingHash, signingMessage_stripped]
  · intro hplain tx' htx' hplain' hhash
    exact signingCopy_eq_of_message htx'.limits htx.limits hplain' hplain (hcoll tx' hhash)

/-- A transfer of five units as it stands on the wire. -/
def fiveUnits : Transaction :=
  { freshTransaction with value := some 5, gasLimit := 21000, chainID := 1668 }

/-- The SHA3-256 digest of the signing message of that transfer. -/
def fiveUnitsDigest : Hash := copyInto 32
  [0x70, 0x55, 0xbe, 0x27, 0xeb, 0x3a, 0xfa, 0xf7, 0xbc, 0xea, 0xf1, 0x1c, 0x96, 0x33, 0xb1,
    0x23, 0x3e, 0x5c, 0x1b, 0xc4, 0xfe, 0xd9, 0xd7, 0x80, 0xb2, 0x3e, 0x95, 0xf2, 0xfd, 0xda,
    0xba, 0x19]

/-- SHA3-256 as far as that message is concerned. -/
def fiveUnitsSha3 (m : Bytes) : Hash :=
  if m = signingMessage fiveUnits then fiveUnitsDigest else zeroArr 32

theorem fiveUnitsSha3_inj {m : Bytes}
    (h : fiveUnitsSha3 m = fiveUnitsSha3 (signingMessage fiveUnits)) :
    m = signingMessage fiveUnits := by
  by_contra hm
  rw [fiveUnitsSha3, fiveUnitsSha3, if_neg hm, if_pos rfl] at h
  exact absurd h (by decide)

theorem signingHash_binds_fiveUnits : (∀ tx', Decoded tx' → Plain tx' →
      signingHash fiveUnitsSha3 tx' = signingHash fiveUnitsSha3 fiveUnits →
      signingCopy tx' = signingCopy fiveUnits) ↔ Plain fiveUnits :=
  signingHash_binds_iff fiveUnitsSha3
    ⟨[0x32, 0x01, 0x05, 0x38, 0x88, 0xa4, 0x01, 0x68, 0x84, 0x0d], by decide +kernel⟩
    fun _ => fiveUnitsSha3_inj

/-- A privacy transaction and the same with an empty commitment appended:
the signature over one is a signature over the other. -/
theorem signingHash_empty_commitment :
    let bare : Transaction := { freshTransaction with type := TxType.privacy, chainID := 1668 }
    let padded : Transaction := { bare with privacyCommitments := [[]] }
    unmarshalTransaction [0x10, 0x08, 0x68, 0x84, 0x0d] = .ok bare ∧
      unmarshalTransaction [0x10, 0x08, 0x68, 0x84, 0x0d, 0x82, 0x02, 0x00] = .ok padded ∧
      (∀ sha3 : Bytes → Hash, signingHash sha3 padded = signingHash sha3 bare) ∧
      padded.privacyCommitments ≠ bare.privacyCommitments := by
  exact ⟨by decide +kernel, by decide +kernel, fun sha3 => rfl, by decide⟩

end Qau
