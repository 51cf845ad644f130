import Qau.BlockRoundTrip

/-!
# What the signing root of a header covers

Two headers from the wire have the same encoding exactly when they are the
same up to a nil base fee that stands for zero (`marshalBlockHeader_eq_iff`):
the encoding spells one sequence of groups, and running the groups gives the
header back. The signing root is the hash of the encoding of
`signingHeader`, so it determines every field but those that
`signingHeader` clears, and no more than that.
-/

namespace Qau

variable {a b h s s' : BlockHeader}

/-- `h` was read from the wire. -/
def DecodedHeader (h : BlockHeader) : Prop := ∃ data, unmarshalBlockHeader data = .ok h

/-- The fields of variable length. -/
def BlockHeader.byteFields (h : BlockHeader) : List Bytes :=
  [h.vrfProof, h.signature, h.attestations, h.syncCommitteeSig, h.syncCommitteeBits,
    h.daAttestation, h.daBlobCommitments, h.qtdSignature, h.executiveSealers, h.qtdGroupKey,
    h.qtdGroupKeyProof]

/-- What the decoder guarantees. -/
structure HeaderLimits (h : BlockHeader) : Prop where
  timestamp : 0 ≤ h.timestamp
  baseFee : IntFits h.baseFee
  bytes : ∀ d ∈ h.byteFields, d.length ≤ maxWireBytesSize

/-- A zero base fee is written as a nil one. -/
def nilBaseFee (h : BlockHeader) : BlockHeader := { h with baseFee := writtenInt h.baseFee }

/-! ## Limits of decoded headers -/

theorem toInt64_nonneg {x : UInt64} (hx : x.toNat ≤ maxInt64) : 0 ≤ x.toInt64 := by
  rw [Int64.le_iff_toInt_le, show x.toInt64.toInt = x.toBitVec.toInt from rfl,
    BitVec.toInt_eq_toNat_cond, show x.toBitVec.toNat = x.toNat from rfl, if_pos]
  · exact Int.natCast_nonneg _
  · rw [maxInt64] at hx
    omega

theorem headerSwitch_limits (h : HeaderLimits s) (n : Nat) {v : WireValue} (hv : v.Fits)
    (hs : applyCase (headerSwitch s n) s v = .ok s') : HeaderLimits s' := by
  have hyields : ∀ {c : FieldCase BlockHeader EncodingError}, applyCase c s v = .ok s' →
      Yields c s HeaderLimits → HeaderLimits s' := fun hs hc => hc v s' hs
  have hbytes : ∀ {name : String} {set : Bytes → BlockHeader},
      applyCase (bytesCase name set) s v = .ok s' →
      (∀ d, d.length ≤ maxWireBytesSize → HeaderLimits (set d)) → HeaderLimits s' := by
    intro name set hs hset
    cases v with
    | bytes d => exact Except.ok.inj hs ▸ hset d hv
    | varint | fixed64 | fixed32 => cases hs
  have hlen := h.bytes
  simp only [BlockHeader.byteFields, List.forall_mem_cons] at hlen
  unfold headerSwitch at hs
  split at hs
  -- Only the timestamp, the base fee and the byte strings have limits.
  all_goals first
    | exact hyields hs (yields_uint64 fun _ => { h with })
    | exact hyields hs (yields_hash fun _ => { h with })
    | exact hyields hs (yields_address fun _ => { h with })
    | exact hyields hs (yields_int fun _ h0 hx => { h with baseFee := intFits_some h0 hx })
    | exact hyields hs (yields_bounded fun _ _ => { h with })
    | exact hyields hs (yields_bounded fun _ hx => { h with timestamp := toInt64_nonneg hx })
    | exact hyields hs (yields_unknown h)
    | exact hbytes hs fun d hd => { h with bytes := by simp [BlockHeader.byteFields, hd, hlen] }

theorem DecodedHeader.limits (h : DecodedHeader s) : HeaderLimits s := by
  obtain ⟨data, h⟩ := h
  unfold unmarshalBlockHeader at h
  split_ifs at h
  obtain ⟨fs, hfits, -, hrun⟩ := decodeLoop_sound _ headerSwitch h
  refine foldlM_applyField_invariant headerSwitch
    (fun s f hf hs s' => headerSwitch_limits hs f.num hf.2) hfits ?_
    ((runFields_ok_iff _ headerSwitch).mp hrun).2
  exact ⟨Int64.le_refl 0, fun _ hx => (nomatch hx), by simp [BlockHeader.byteFields]⟩

/-! ## The encoding determines the header -/

theorem encodeBaseFee_eq {v : Option Int} (hv : IntFits v) : encodeBaseFee v = encodeIntField v := by
  cases v with
  | none => rfl
  | some x =>
    have := (hv x rfl).1
    exact if_congr (by omega) rfl rfl

theorem encodeBaseFee_written (v : Option Int) :
    encodeBaseFee (writtenInt v) = encodeBaseFee v := by
  cases v with
  | none => rfl
  | some x =>
    by_cases hx : x = 0
    · subst hx
      rfl
    · rw [writtenInt_some hx]

theorem headerGroups_nilBaseFee (s : BlockHeader) : headerGroups (nilBaseFee s) = headerGroups s := by
  simp [headerGroups, nilBaseFee, encodeBaseFee_written]

theorem HeaderLimits.fits (h : HeaderLimits s) : HeaderFits (nilBaseFee s) := by
  refine ⟨h.timestamp, fun v hv => ?_⟩
  obtain ⟨hv, hne⟩ := Option.filter_eq_some_iff.mp hv
  obtain ⟨hpos, hlt⟩ := h.baseFee v hv
  exact ⟨lt_of_le_of_ne hpos (Ne.symm (by simpa using hne)), hlt⟩

theorem fits_headerGroups (h : HeaderLimits s) : ∀ f ∈ groupFields (headerGroups s), f.Fits := by
  have hbytes : ∀ d ∈ s.byteFields, ∀ v ∈ encodeBytesField d, v.Fits :=
    fun d hd => fits_encodeBytesField (h.bytes d hd)
  have halways : ∀ x, ∀ v ∈ encodeUint64FieldAlways x, v.Fits := by
    simp [encodeUint64FieldAlways, WireValue.Fits]
  have hfee : ∀ v ∈ encodeBaseFee s.baseFee, v.Fits := by
    rw [encodeBaseFee_eq h.baseFee]
    exact h.baseFee.bytes_le
  have htime : ∀ v ∈ encodeInt64Field s.timestamp, v.Fits := by
    unfold encodeInt64Field
    split <;> simp [WireValue.Fits]
  have harray : ∀ {n : Nat}, n ≤ maxWireBytesSize → ∀ x : ByteArr n,
      ∀ v ∈ encodeBytesField x.toList, v.Fits :=
    fun hn x => fits_encodeBytesField (x.toList_length.trans_le hn)
  have hvalues : ∀ g ∈ headerGroups s, ∀ v ∈ g.values, v.Fits := by
    simp only [headerGroups, List.forall_mem_cons, List.not_mem_nil, false_imp_iff, implies_true,
      and_true]
    and_intros
    all_goals first
      | exact fits_encodeUint32Field _
      | exact fits_encodeUint64Field _
      | exact fits_encodeHashField _
      | exact harray (by decide) _
      | exact hfee
      | exact htime
      | exact halways _
      | exact hbytes _ (by simp [BlockHeader.byteFields])
  have hnum : ∀ n ∈ (headerGroups s).map WireGroup.num, n < 2 ^ 61 := by
    rw [headerGroups_nums]
    decide
  intro f hf
  obtain ⟨g, hg, hfg, hv⟩ := mem_groupFields.mp hf
  exact ⟨hfg ▸ hnum _ (List.mem_map_of_mem hg), hvalues g hg _ hv⟩

theorem marshalBlockHeader_eq_iff (ha : HeaderLimits a) (hb : HeaderLimits b) :
    marshalBlockHeader a = marshalBlockHeader b ↔ nilBaseFee a = nilBaseFee b := by
  constructor
  · intro h
    have hgroups : headerGroups a = headerGroups b :=
      values_eq_of_groupFields_eq (by rw [headerGroups_nums, headerGroups_nums])
        (by rw [headerGroups_nums]; decide)
        (encodeFields_inj (fits_headerGroups ha) (fits_headerGroups hb) h)
    have hrun := run_headerGroups ha.fits
    rw [headerGroups_nilBaseFee, hgroups, ← headerGroups_nilBaseFee b, run_headerGroups hb.fits] at hrun
    exact (Except.ok.inj hrun).symm
  · intro h
    rw [marshalBlockHeader, marshalBlockHeader, ← headerGroups_nilBaseFee a, h,
      headerGroups_nilBaseFee]

/-! ## The signing root -/

/-- The header `h` with the fields that are filled in after signing as `g`
has them. -/
def withUnsigned (h g : BlockHeader) : BlockHeader :=
  { h with
    signature := g.signature
    syncCommitteeSig := g.syncCommitteeSig
    syncCommitteeBits := g.syncCommitteeBits
    qtdSignature := g.qtdSignature
    executiveSealers := g.executiveSealers
    reviewAttestationRoot := g.reviewAttestationRoot
    finalityType := g.finalityType
    qtdGroupKey := g.qtdGroupKey
    qtdGroupKeyProof := g.qtdGroupKeyProof }

theorem signingHeader_limits (h : HeaderLimits s) : HeaderLimits (signingHeader s) := by
  refine ⟨h.timestamp, h.baseFee, ?_⟩
  have hbytes := h.bytes
  simp only [BlockHeader.byteFields, List.forall_mem_cons] at hbytes
  simp [BlockHeader.byteFields, signingHeader, hbytes]

theorem nilBaseFee_signingHeader_iff : nilBaseFee (signingHeader a) = nilBaseFee (signingHeader b) ↔
      nilBaseFee (withUnsigned a b) = nilBaseFee b := by
  constructor
  · intro h
    exact congrArg (withUnsigned · b) h
  · intro h
    exact congrArg signingHeader h

/-- Two decoded headers have one signing root exactly when they agree in
every field that is not filled in after signing. -/
theorem blockHeaderSigningRoot_eq_iff (sha3 : Bytes → Hash) (ha : DecodedHeader a)
    (hb : DecodedHeader b) (hcoll : sha3 (marshalBlockHeader (signingHeader a)) =
        sha3 (marshalBlockHeader (signingHeader b)) →
      marshalBlockHeader (signingHeader a) = marshalBlockHeader (signingHeader b)) :
    blockHeaderSigningRoot sha3 a = blockHeaderSigningRoot sha3 b ↔
      nilBaseFee (withUnsigned a b) = nilBaseFee b := by
  have hroot : blockHeaderSigningRoot sha3 a = blockHeaderSigningRoot sha3 b ↔
      marshalBlockHeader (signingHeader a) = marshalBlockHeader (signingHeader b) :=
    ⟨hcoll, congrArg sha3⟩
  rw [hroot, marshalBlockHeader_eq_iff (signingHeader_limits ha.limits)
    (signingHeader_limits hb.limits), nilBaseFee_signingHeader_iff]

/-- A header as proposed and the same with a seal attached. -/
theorem blockHeaderSigningRoot_sealed : unmarshalBlockHeader [0x08, 0x01, 0x5a, 0x01, 0x07] =
        .ok { version := 1, signature := [7] } ∧
      unmarshalBlockHeader [0x08, 0x01, 0xea, 0x01, 0x01, 0x09] =
        .ok { version := 1, qtdSignature := [9] } ∧
      ∀ sha3 : Bytes → Hash,
        blockHeaderSigningRoot sha3 { version := 1, signature := [7] } =
            blockHeaderSigningRoot sha3 { version := 1, qtdSignature := [9] } ↔
          nilBaseFee (withUnsigned { version := 1, signature := [7] }
            { version := 1, qtdSignature := [9] }) =
          nilBaseFee { version := 1, qtdSignature := [9] } := by
  have hsigned : unmarshalBlockHeader [0x08, 0x01, 0x5a, 0x01, 0x07] =
      .ok { version := 1, signature := [7] } := by decide +kernel
  have hsealed : unmarshalBlockHeader [0x08, 0x01, 0xea, 0x01, 0x01, 0x09] =
      .ok { version := 1, qtdSignature := [9] } := by decide +kernel
  exact ⟨hsigned, hsealed, fun sha3 =>
    blockHeaderSigningRoot_eq_iff sha3 ⟨_, hsigned⟩ ⟨_, hsealed⟩ fun _ => rfl⟩

end Qau
