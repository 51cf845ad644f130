import Qau.Wire

/-!
# Messages as sequences of fields

The decoders of `encoding` share one loop: read a tag, refuse a field
number seen before unless it is repeatable, and hand the payload to the
case of a `switch` on the field number; a number without a case is
skipped. Here the loop is written once, over the switch (`FieldCase`) and
the set of repeatable numbers.

The loop has a meaning that does not mention bytes: `runFields` applies
the switch to a list of fields. `decodeMessage_encodeFields` and
`decodeMessage_ok_iff` say that decoding a byte string within the budget
is running the one list of fields it spells. On the writing side a message
is a list of groups, the values written under one field number each;
`decodeMessage_groups` runs them group by group, for any order of distinct
field numbers.
-/

namespace Qau

variable {b : Buffer} {seen : List Nat} {fs : List WireField} {fuel : Nat} {f : WireField}

/-- What a case of a decoder's switch does with its payload: the name used
in the wire-type error, and the update, which may refuse the value. A byte
string's case may look at the message before the payload is read. -/
inductive FieldCase (σ ε : Type) where
  | varint (name : String) (set : UInt64 → Except ε σ)
  | bytes (name : String) (ready : Except ε Unit) (set : Bytes → Except ε σ)
  | unknown

/-- Why a message is refused. `outOfFuel` is never the answer of
`decodeMessage`. -/
inductive MessageError (ε : Type) where
  | wire (e : WireError)
  | duplicate (fieldNum : Nat)
  | wireType (name : String)
  | field (e : ε)
  | outOfFuel
  deriving DecidableEq

section Message

variable {σ ε : Type} (repeatable : Nat → Bool) (switch : σ → Nat → FieldCase σ ε)

/-- An update's refusal, or its result and the buffer after the payload. -/
def updated (r : Except ε σ) (b : Buffer) : Except (MessageError ε) (σ × Buffer) :=
  match r with
  | .error e => .error (.field e)
  | .ok s => .ok (s, b)

/-- One case of the switch on the unread payload. -/
def decodeCase (c : FieldCase σ ε) (s : σ) (wireType : Nat) (b : Buffer) :
    Except (MessageError ε) (σ × Buffer) :=
  match c with
  | .varint name set =>
    if wireType ≠ 0 then .error (.wireType name)
    else
      match b.decodeVarint with
      | .error e => .error (.wire e)
      | .ok (v, b') => updated (set v) b'
  | .bytes name ready set =>
    if wireType ≠ 2 then .error (.wireType name)
    else
      match ready with
      | .error e => .error (.field e)
      | .ok () =>
        match b.decodeBytes with
        | .error e => .error (.wire e)
        | .ok (d, b') => updated (set d) b'
  | .unknown =>
    match b.skip wireType with
    | .error e => .error (.wire e)
    | .ok b' => .ok (s, b')

/-- The field numbers seen after one more, unless it is repeatable. -/
def noteSeen (seen : List Nat) (fieldNum : Nat) : List Nat :=
  if repeatable fieldNum then seen else fieldNum :: seen

/-- The decoding loop: `for buf.Remaining() > 0`. -/
def decodeLoop : Nat → List Nat → σ → Buffer → Except (MessageError ε) σ
  | 0, _, s, b => if b.rest = [] then .ok s else .error .outOfFuel
  | fuel + 1, seen, s, b =>
    if b.rest = [] then .ok s
    else
      match b.decodeTag with
      | .error e => .error (.wire e)
      | .ok (fieldNum, wireType, b') =>
        if repeatable fieldNum = false ∧ fieldNum ∈ seen then .error (.duplicate fieldNum)
        else
          match decodeCase (switch s fieldNum) s wireType b' with
          | .error e => .error e
          | .ok (s', b'') => decodeLoop fuel (noteSeen repeatable seen fieldNum) s' b''

/-- The loop on a fresh buffer: every round reads a byte at least. -/
def decodeMessage (s : σ) (data : Bytes) : Except (MessageError ε) σ :=
  decodeLoop repeatable switch data.length [] s (Buffer.new data)

/-! ## The meaning of a list of fields -/

/-- An update's refusal as the message's. -/
def refused (r : Except ε σ) : Except (MessageError ε) σ :=
  match r with
  | .error e => .error (.field e)
  | .ok s => .ok s

/-- One case of the switch on a payload. -/
def applyCase (c : FieldCase σ ε) (s : σ) (v : WireValue) : Except (MessageError ε) σ :=
  match c, v with
  | .varint _ set, .varint v => refused (set v)
  | .varint name _, _ => .error (.wireType name)
  | .bytes _ ready set, .bytes d =>
    match ready with
    | .error e => .error (.field e)
    | .ok () => refused (set d)
  | .bytes name _ _, _ => .error (.wireType name)
  | .unknown, _ => .ok s

/-- The switch on a field. -/
def applyField (s : σ) (f : WireField) : Except (MessageError ε) σ :=
  applyCase (switch s f.num) s f.value

/-- The loop on fields instead of bytes. -/
def runFields : List Nat → σ → List WireField → Except (MessageError ε) σ
  | _, s, [] => .ok s
  | seen, s, f :: fs =>
    if repeatable f.num = false ∧ f.num ∈ seen then .error (.duplicate f.num)
    else
      match applyField switch s f with
      | .error e => .error e
      | .ok s' => runFields (noteSeen repeatable seen f.num) s' fs

theorem updated_eq (r : Except ε σ) (b : Buffer) : updated r b = (refused r).map (·, b) := by
  cases r <;> rfl

/-- On the encoding of a payload a case does what it does on the payload;
the buffer after it stands behind the payload and keeps its room. -/
theorem decodeCase_encode (c : FieldCase σ ε) (s : σ) {v : WireValue} (hv : v.Fits) {r : Bytes}
    {n : Nat} (hroom : n + (v.encode ++ r).length ≤ maxWireTotalSize) :
    ∃ n', n' + r.length ≤ maxWireTotalSize ∧
      decodeCase c s v.wireType ⟨v.encode ++ r, n⟩ = (applyCase c s v).map (·, ⟨r, n'⟩) := by
  rw [List.length_append] at hroom
  cases c with
  | varint name set =>
    refine ⟨n, by omega, ?_⟩
    cases v with
    | varint v =>
      simp only [decodeCase, WireValue.wireType, WireValue.encode, decodeVarint_encode,
        applyCase, updated_eq, ne_eq, not_true_eq_false, if_false]
    | fixed64 | bytes | fixed32 => rfl
  | bytes name ready set =>
    refine ⟨n + v.encode.length, by omega, ?_⟩
    cases v with
    | bytes d =>
      cases ready with
      | error e => rfl
      | ok u =>
        have htake := takeBytes_encode (r := r) (n := n) hv
          (by simp only [WireValue.encode] at hroom; omega)
        simp only [decodeCase, WireValue.wireType, WireValue.encode, Buffer.decodeBytes,
          htake, applyCase, updated_eq, ne_eq, not_true_eq_false, if_false]
    | varint | fixed64 | fixed32 => rfl
  | unknown =>
    refine ⟨n + v.encode.length, by omega, ?_⟩
    simp only [decodeCase, skip_encode hv (r := r) (n := n) (by omega)]
    cases v <;> rfl

theorem decodeLoop_encodeFields (hfits : ∀ f ∈ fs, f.Fits) (hfuel : fs.length ≤ fuel)
    (seen : List Nat) (s : σ) {n : Nat} (hroom : n + (encodeFields fs).length ≤ maxWireTotalSize) :
    decodeLoop repeatable switch fuel seen s ⟨encodeFields fs, n⟩ =
      runFields repeatable switch seen s fs := by
  induction fs generalizing fuel seen s n with
  | nil => cases fuel <;> simp [decodeLoop, runFields]
  | cons f fs ih =>
    cases fuel with
    | zero => simp at hfuel
    | succ fuel =>
      obtain ⟨hnum, hval⟩ := hfits f (by simp)
      have hne : encodeFields (f :: fs) ≠ [] := by simp [WireField.encode_ne_nil]
      simp only [decodeLoop, runFields, if_neg hne]
      rw [encodeFields_cons, WireField.encode, List.append_assoc] at hroom ⊢
      rw [decodeTag_encode hnum (wireType_lt _)]
      dsimp only
      split
      · rfl
      · obtain ⟨n', hroom', hcase⟩ := decodeCase_encode (switch s f.num) s hval
          (r := encodeFields fs) (n := n) (by rw [List.length_append] at hroom; omega)
        rw [hcase, applyField]
        cases applyCase (switch s f.num) s f.value with
        | error e => rfl
        | ok s' =>
          exact ih (fun g hg => hfits g (by simp [hg])) (by simpa using hfuel) _ _ hroom'

/-- A decoded payload is the encoding of one, and the case did what it does on it. -/
theorem decodeCase_sound {c : FieldCase σ ε} {s s' : σ} {wt : Nat} {b' : Buffer}
    (h : decodeCase c s wt b = .ok (s', b')) :
    ∃ v : WireValue, v.wireType = wt ∧ v.Fits ∧ b.rest = v.encode ++ b'.rest ∧
      b'.totalAllocated ≤ b.totalAllocated + v.encode.length ∧ applyCase c s v = .ok s' := by
  cases c with
  | varint name set =>
    simp only [decodeCase] at h
    split_ifs at h with hwt
    split at h
    · cases h
    · rename_i v b1 hd
      rw [updated_eq] at h
      obtain ⟨s1, hset, hpair⟩ := of_map_eq_ok h
      obtain ⟨rfl, rfl⟩ := Prod.mk.inj hpair
      obtain ⟨hrest, htot⟩ := decodeVarint_sound hd
      exact ⟨.varint v, (not_not.mp hwt).symm, trivial, hrest, by omega, hset⟩
  | bytes name ready set =>
    simp only [decodeCase] at h
    split_ifs at h with hwt
    cases ready with
    | error e => cases h
    | ok u =>
      dsimp only at h
      split at h
      · cases h
      · rename_i d b1 hd
        rw [updated_eq] at h
        obtain ⟨s1, hset, hpair⟩ := of_map_eq_ok h
        obtain ⟨rfl, rfl⟩ := Prod.mk.inj hpair
        obtain ⟨hlen, hrest, htot⟩ := takeBytes_sound hd
        exact ⟨.bytes d, (not_not.mp hwt).symm, hlen, hrest, htot.le, hset⟩
  | unknown =>
    simp only [decodeCase] at h
    split at h
    · cases h
    · rename_i b1 hd
      obtain ⟨rfl, rfl⟩ := Prod.mk.inj (Except.ok.inj h)
      obtain ⟨v, hwt, hfits, hrest, htot⟩ := skip_sound hd
      exact ⟨v, hwt, hfits, hrest, htot.le, by cases v <;> rfl⟩

/-- An accepted input spells a list of fields that runs to the same message. -/
theorem decodeLoop_sound {s s' : σ} (h : decodeLoop repeatable switch fuel seen s b = .ok s') :
    ∃ fs : List WireField, (∀ f ∈ fs, f.Fits) ∧ b.rest = encodeFields fs ∧
      runFields repeatable switch seen s fs = .ok s' := by
  induction fuel generalizing seen s b with
  | zero =>
    simp only [decodeLoop] at h
    split_ifs at h with hnil
    exact ⟨[], by simp, hnil, by rw [runFields, h]⟩
  | succ fuel ih =>
    simp only [decodeLoop] at h
    split_ifs at h with hnil
    · exact ⟨[], by simp, hnil, by rw [runFields, h]⟩
    · split at h
      · cases h
      · rename_i num wt b1 htag
        obtain ⟨hnum, -, hrest, -⟩ := decodeTag_sound htag
        split_ifs at h with hdup
        split at h
        · cases h
        · rename_i s1 b2 hcase
          obtain ⟨v, rfl, hfits, hrest1, -, happly⟩ := decodeCase_sound hcase
          obtain ⟨fs, hfs, hrest2, hrun⟩ := ih h
          refine ⟨⟨num, v⟩ :: fs, ?_, ?_, ?_⟩
          · intro f hf
            rcases List.mem_cons.mp hf with rfl | hf
            · exact ⟨hnum, hfits⟩
            · exact hfs f hf
          · rw [hrest, hrest1, hrest2, encodeFields_cons, WireField.encode, List.append_assoc]
          · rw [runFields, if_neg hdup, applyField, happly]
            exact hrun

theorem decodeCase_ne_outOfFuel {c : FieldCase σ ε} {s : σ} {wt : Nat} :
    decodeCase c s wt b ≠ .error .outOfFuel := by
  unfold decodeCase updated
  grind

/-- The loop never runs out of fuel: each round consumes its tag. -/
theorem decodeLoop_ne_outOfFuel (seen : List Nat) (s : σ) (hfuel : b.rest.length ≤ fuel) :
    decodeLoop repeatable switch fuel seen s b ≠ .error .outOfFuel := by
  fun_induction decodeLoop with
  | case2 => simp_all
  | case6 =>
    rintro ⟨⟩
    exact decodeCase_ne_outOfFuel ‹_›
  | case7 fuel seen s b hnil num wt b1 htag hdup s1 b2 hc ih =>
    obtain ⟨-, -, hrest, -⟩ := decodeTag_sound htag
    obtain ⟨v, -, -, hrest1, -, -⟩ := decodeCase_sound hc
    have hpos := List.length_pos_of_ne_nil (encodeVarint_ne_nil (UInt64.ofNat (num * 8 + wt)))
    rw [hrest, hrest1, WireField.encodeTag] at hfuel
    simp only [List.length_append] at hfuel
    exact ih (by omega)
  | _ => simp

theorem decodeMessage_encodeFields (hfits : ∀ f ∈ fs, f.Fits)
    (hlen : (encodeFields fs).length ≤ maxWireTotalSize) (s : σ) :
    decodeMessage repeatable switch s (encodeFields fs) = runFields repeatable switch [] s fs :=
  decodeLoop_encodeFields repeatable switch hfits (length_le_encodeFields fs) [] s
    (by rw [Nat.zero_add]; exact hlen)

theorem decodeMessage_ok_iff {data : Bytes} (hlen : data.length ≤ maxWireTotalSize) {s s' : σ} :
    decodeMessage repeatable switch s data = .ok s' ↔
      ∃ fs : List WireField, (∀ f ∈ fs, f.Fits) ∧ data = encodeFields fs ∧
        runFields repeatable switch [] s fs = .ok s' := by
  constructor
  · exact decodeLoop_sound repeatable switch
  · rintro ⟨fs, hfits, rfl, hrun⟩
    rw [decodeMessage_encodeFields repeatable switch hfits hlen, hrun]

/-! ## The duplicate check apart from the updates -/

/-- No field number comes twice unless it is repeatable. -/
def Distinct (seen : List Nat) (fs : List WireField) : Prop :=
  (∀ f ∈ fs, repeatable f.num = true ∨ f.num ∉ seen) ∧
    fs.Pairwise fun f g => f.num = g.num → repeatable f.num = true

theorem distinct_cons : Distinct repeatable seen (f :: fs) ↔
      ¬ (repeatable f.num = false ∧ f.num ∈ seen) ∧
        Distinct repeatable (noteSeen repeatable seen f.num) fs := by
  unfold Distinct noteSeen
  rw [List.pairwise_cons]
  cases hr : repeatable f.num
  · have hpoint : ∀ g : WireField, repeatable g.num = true ∨ ¬ (g.num = f.num ∨ g.num ∈ seen) ↔
        (repeatable g.num = true ∨ g.num ∉ seen) ∧ ¬ f.num = g.num := by
      intro g
      by_cases hg : g.num = f.num
      · simp [hg, hr]
      · simp [hg, Ne.symm hg]
    simp only [List.mem_cons, forall_eq_or_imp, hr, Bool.false_eq_true, if_false, false_or, hpoint,
      imp_and, forall_and, and_assoc, true_and, imp_false]
  · simp [hr]

/-- A run succeeds exactly when no number repeats and the updates succeed. -/
theorem runFields_ok_iff {s s' : σ} : runFields repeatable switch seen s fs = .ok s' ↔
      Distinct repeatable seen fs ∧ fs.foldlM (applyField switch) s = .ok s' := by
  induction fs generalizing seen s with
  | nil => simp [runFields, Distinct, pure, Except.pure]
  | cons f fs ih =>
    rw [runFields, distinct_cons, List.foldlM_cons]
    by_cases hdup : repeatable f.num = false ∧ f.num ∈ seen
    · simp [hdup]
    · rw [if_neg hdup]
      cases happly : applyField switch s f with
      | error e => simp [bind, Except.bind]
      | ok s1 =>
        simp only [bind, Except.bind, ih]
        tauto

/-! ## What a case can do to the message

`Yields c s P` says that every message that `c` makes of `s` satisfies `P`.
An invariant of a decoder is one `Yields` per case of its switch. -/

def Yields (c : FieldCase σ ε) (s : σ) (P : σ → Prop) : Prop :=
  ∀ v s', applyCase c s v = .ok s' → P s'

section Yields

variable {s : σ} {name : String} {P : σ → Prop}

theorem yields_varint {set : UInt64 → Except ε σ}
    (h : ∀ x s', set x = .ok s' → P s') : Yields (.varint name set) s P := by
  intro v s' hs
  cases v with
  | varint x =>
    simp only [applyCase, refused] at hs
    split at hs
    · cases hs
    · rename_i hx
      obtain rfl := Except.ok.inj hs
      exact h x _ hx
  | fixed64 | bytes | fixed32 => cases hs

theorem yields_bytesWith {ready : Except ε Unit} {set : Bytes → Except ε σ}
    (h : ∀ d s', ready = .ok () → set d = .ok s' → P s') : Yields (.bytes name ready set) s P := by
  intro v s' hs
  cases v with
  | bytes d =>
    cases ready with
    | error e => cases hs
    | ok u =>
      simp only [applyCase, refused] at hs
      split at hs
      · cases hs
      · rename_i hd
        obtain rfl := Except.ok.inj hs
        exact h d _ rfl hd
  | varint | fixed64 | fixed32 => cases hs

theorem yields_unknown (h : P s) : Yields (.unknown : FieldCase σ ε) s P := by
  intro v s' hs
  obtain rfl := Except.ok.inj hs
  exact h

end Yields

/-- What every case keeps holds of the message at the end. -/
theorem foldlM_applyField_invariant {P : σ → Prop}
    (hstep : ∀ s f, f.Fits → P s → ∀ s', applyField switch s f = .ok s' → P s')
    (hfs : ∀ f ∈ fs, f.Fits) {s s' : σ} (hs : P s) (h : fs.foldlM (applyField switch) s = .ok s') : P s' := by
  induction fs generalizing s with
  | nil => exact Except.ok.inj h ▸ hs
  | cons f fs ih =>
    rw [List.foldlM_cons] at h
    cases happly : applyField switch s f with
    | error e => simp [happly, bind, Except.bind] at h
    | ok s1 =>
      rw [happly] at h
      exact ih (fun g hg => hfs g (by simp [hg])) (hstep s f (hfs f (by simp)) hs s1 happly) h

end Message

/-! ## Messages as they are written -/

/-- What an encoder writes under one field number. -/
structure WireGroup where
  num : Nat
  values : List WireValue

variable {gs : List WireGroup}

def WireGroup.fields (g : WireGroup) : List WireField := g.values.map (⟨g.num, ·⟩)

def groupFields (gs : List WireGroup) : List WireField := gs.flatMap WireGroup.fields

/-- `EncodeUint32Field`: a zero is not written. -/
def encodeUint32Field (v : UInt32) : List WireValue :=
  if v ≠ 0 then [.varint v.toUInt64] else []

/-- `EncodeUint64Field`: a zero is not written. -/
def encodeUint64Field (v : UInt64) : List WireValue :=
  if v ≠ 0 then [.varint v] else []

def encodeUint64FieldAlways (v : UInt64) : List WireValue := [.varint v]

/-- `EncodeBytesField`: an empty byte string is not written. -/
def encodeBytesField (d : Bytes) : List WireValue :=
  if 0 < d.length then [.bytes d] else []

def encodeBytesFieldAlways (d : Bytes) : List WireValue := [.bytes d]

@[simp] theorem groupFields_nil : groupFields [] = [] := rfl

@[simp] theorem groupFields_cons (g : WireGroup) (gs : List WireGroup) :
    groupFields (g :: gs) = g.fields ++ groupFields gs := rfl

theorem mem_groupFields : f ∈ groupFields gs ↔ ∃ g ∈ gs, f.num = g.num ∧ f.value ∈ g.values := by
  simp only [groupFields, WireGroup.fields, List.mem_flatMap, List.mem_map]
  constructor
  · rintro ⟨g, hg, v, hv, rfl⟩
    exact ⟨g, hg, rfl, hv⟩
  · rintro ⟨g, hg, hnum, hv⟩
    exact ⟨g, hg, f.value, hv, by rw [← hnum]⟩

section Groups

variable {σ ε : Type} (repeatable : Nat → Bool) (switch : σ → Nat → FieldCase σ ε)

/-- The updates of one group. -/
def runGroup (s : σ) (g : WireGroup) : Except (MessageError ε) σ :=
  g.values.foldlM (fun s v => applyCase (switch s g.num) s v) s

theorem runGroup_nil (s : σ) (n : Nat) : runGroup switch s ⟨n, []⟩ = .ok s := rfl

theorem runGroup_singleton (s : σ) (n : Nat) (v : WireValue) :
    runGroup switch s ⟨n, [v]⟩ = applyCase (switch s n) s v := by
  simp only [runGroup, List.foldlM_cons, List.foldlM_nil]
  cases applyCase (switch s n) s v <;> rfl

variable {switch} in
theorem runGroups_cons {s t u : σ} {g : WireGroup} {gs : List WireGroup}
    (hg : runGroup switch s g = .ok t) (hgs : gs.foldlM (runGroup switch) t = .ok u) :
    (g :: gs).foldlM (runGroup switch) s = .ok u := by
  rw [List.foldlM_cons, hg]
  exact hgs

variable {switch} in
theorem runGroups_append {s t u : σ} {gs hs : List WireGroup}
    (hg : gs.foldlM (runGroup switch) s = .ok t) (hh : hs.foldlM (runGroup switch) t = .ok u) :
    (gs ++ hs).foldlM (runGroup switch) s = .ok u := by
  rw [List.foldlM_append, hg]
  exact hh

theorem foldlM_groupFields (gs : List WireGroup) (s : σ) :
    (groupFields gs).foldlM (applyField switch) s = gs.foldlM (runGroup switch) s := by
  induction gs generalizing s with
  | nil => rfl
  | cons g gs ih =>
    have hgroup : g.fields.foldlM (applyField switch) s = runGroup switch s g := by
      rw [WireGroup.fields, List.foldlM_map]
      rfl
    rw [groupFields_cons, List.foldlM_append, List.foldlM_cons, hgroup]
    exact congrArg _ (funext ih)

/-- Distinct field numbers, with one value at most where the number is not
repeatable, pass the duplicate check. -/
theorem distinct_groupFields (hnodup : (gs.map WireGroup.num).Nodup)
    (hone : ∀ g ∈ gs, repeatable g.num = true ∨ g.values.length ≤ 1) :
    Distinct repeatable [] (groupFields gs) := by
  refine ⟨fun f _ => .inr (by simp), ?_⟩
  rw [groupFields, List.pairwise_flatMap]
  constructor
  · intro g hg
    rw [WireGroup.fields, List.pairwise_map]
    rcases hone g hg with hrep | hlen
    · exact List.pairwise_of_forall fun _ _ _ => hrep
    · match hv : g.values, hlen with
      | [], _ => exact List.Pairwise.nil
      | [v], _ => exact List.pairwise_singleton _ v
  · rw [List.Nodup, List.pairwise_map] at hnodup
    refine hnodup.imp fun {g h} hne f hf k hk heq => ?_
    simp only [WireGroup.fields, List.mem_map] at hf hk
    obtain ⟨v, -, rfl⟩ := hf
    obtain ⟨w, -, rfl⟩ := hk
    exact absurd heq hne

theorem decodeMessage_groups {gs : List WireGroup} {s s' : σ}
    (hnodup : (gs.map WireGroup.num).Nodup) (hnum : ∀ n ∈ gs.map WireGroup.num, n < 2 ^ 61)
    (hone : ∀ g ∈ gs, repeatable g.num = true ∨ g.values.length ≤ 1)
    (hlen : (encodeFields (groupFields gs)).length ≤ maxWireBytesSize)
    (hrun : gs.foldlM (runGroup switch) s = .ok s') :
    decodeMessage repeatable switch s (encodeFields (groupFields gs)) = .ok s' := by
  have hfits : ∀ f ∈ groupFields gs, f.Fits := by
    refine fits_of_length (fun f hf => ?_) hlen
    obtain ⟨g, hg, hfg, -⟩ := mem_groupFields.mp hf
    exact hfg ▸ hnum _ (List.mem_map_of_mem hg)
  have htotal : maxWireBytesSize ≤ maxWireTotalSize := by decide
  rw [decodeMessage_encodeFields repeatable switch hfits (hlen.trans htotal),
    runFields_ok_iff, foldlM_groupFields]
  exact ⟨distinct_groupFields repeatable hnodup hone, hrun⟩

end Groups

/-- Two messages with the same field numbers and the same fields agree group
by group. -/
theorem values_eq_of_groupFields_eq {hs : List WireGroup}
    (hnums : gs.map WireGroup.num = hs.map WireGroup.num) (hnodup : (gs.map WireGroup.num).Nodup)
    (h : groupFields gs = groupFields hs) : gs = hs := by
  induction gs generalizing hs with
  | nil =>
    cases hs with
    | nil => rfl
    | cons k hs => simp at hnums
  | cons g gs ih =>
    cases hs with
    | nil => simp at hnums
    | cons k hs =>
      simp only [List.map_cons, List.cons.injEq] at hnums
      obtain ⟨hgk, hnums⟩ := hnums
      rw [List.map_cons, List.nodup_cons] at hnodup
      -- Only the first group has fields with its number, so filtering recovers it.
      have hother : ∀ l : List WireGroup, g.num ∉ l.map WireGroup.num →
          (groupFields l).filter (fun f => f.num == g.num) = [] := by
        intro l hl
        rw [List.filter_eq_nil_iff]
        intro f hf heq
        obtain ⟨k, hk, hfk, -⟩ := mem_groupFields.mp hf
        rw [beq_iff_eq, hfk] at heq
        exact hl (heq ▸ List.mem_map_of_mem hk)
      have hown : ∀ k : WireGroup, k.num = g.num →
          k.fields.filter (fun f => f.num == g.num) = k.fields := by
        intro k hk
        rw [List.filter_eq_self]
        intro f hf
        simp only [WireGroup.fields, List.mem_map] at hf
        obtain ⟨v, -, rfl⟩ := hf
        simp [hk]
      have hfirst := congrArg (List.filter fun f => f.num == g.num) h
      rw [groupFields_cons, groupFields_cons, List.filter_append, List.filter_append,
        hown g rfl, hown k hgk.symm, hother gs hnodup.1, hother hs (hnums ▸ hnodup.1),
        List.append_nil, List.append_nil] at hfirst
      have hrest : groupFields gs = groupFields hs := by
        rw [groupFields_cons, groupFields_cons, hfirst] at h
        exact List.append_cancel_left h
      have hvalues : g.values = k.values := by
        have := congrArg (List.map WireField.value) hfirst
        simpa [WireGroup.fields, Function.comp_def] using this
      have hgk' : g = k := by
        cases g
        cases k
        simp_all
      rw [hgk', ih hnums hnodup.2 hrest]

end Qau
