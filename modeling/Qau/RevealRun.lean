import Qau.CommitReveal
import Qau.Transition

/-!
# Runs of the commit-reveal manager

What a consumed reveal goes back to, and what one sender sees of the
others. A commitment in the map by hash was entered by a registration of
its own sender and is marked when a reveal uses it; so a reveal is consumed
by the sender who registered, once, and before the timeout. The delay is
another matter: the stamp is one above the height of the registration and
the test subtracts without a sign, so a reveal *at* that height passes.

The commitments of all senders are under their hashes alone. The state
restricted to one sender runs by itself (`Restricts.own`,
`Restricts.foreign`) as long as no two senders have a record of one hash.
-/

namespace Qau.Txpool

open Std.ExtTreeMap

namespace CommitRevealManager

section
variable (sha3 : Bytes → Hash)

/-- The hash a reveal is looked up by. -/
def revealKey (tx : Transaction) : Option Hash :=
  if tx.data.length = crv2SaltLen then
    tx.toAddr.map fun recipient => computeCommitHash sha3 recipient tx.value tx.data
  else none

/-- The commitment of its own sender that a reveal names. -/
def ownCommitment (m : CommitRevealManager) (tx : Transaction) : Option (Hash × Commitment) :=
  (revealKey sha3 tx).bind fun h =>
    ((m.commits[h]?).filter fun c => c.sender = tx.fromAddr).map (h, ·)

/-- The test on the delay: the difference is one of words. -/
def Ripe (m : CommitRevealManager) (c : Commitment) : Prop :=
  m.currentBlockHeight ≠ 0 ∧ c.blockHeight ≠ 0 ∧
    m.config.minRevealBlocks ≤ m.currentBlockHeight - c.blockHeight

instance (m : CommitRevealManager) (c : Commitment) : Decidable (m.Ripe c) :=
  inferInstanceAs (Decidable (_ ∧ _ ∧ _))

inductive Event where
  | registerCommitment (commitHash : Hash) (sender : Address)
  | setBlockHeight (height : UInt64)
  | checkReveal (tx : Transaction)
  | consumeReveal (tx : Transaction)
  | cleanupExpired

def step (m : CommitRevealManager) : Event → CommitRevealManager
  | .registerCommitment commitHash sender => (m.registerCommitment commitHash sender).2
  | .setBlockHeight height => m.setBlockHeight height
  | .checkReveal tx => (m.checkReveal sha3 tx).2
  | .consumeReveal tx => (m.consumeReveal sha3 tx).2
  | .cleanupExpired => m.cleanupExpired.2

def run (m : CommitRevealManager) (es : List Event) : CommitRevealManager := es.foldl (step sha3) m

/-- The state after a run from the start. -/
abbrev after (cfg : CommitRevealConfig) (es : List Event) : CommitRevealManager :=
  run sha3 { config := cfg } es

/-- The event consumes the commitment under `h`. -/
def Consumes (m : CommitRevealManager) (h : Hash) : Event → Prop
  | .consumeReveal tx => revealKey sha3 tx = some h ∧ (m.consumeReveal sha3 tx).1 = true
  | _ => False

/-- Some event of the run consumes the commitment under `h`. -/
def Consumed (h : Hash) : CommitRevealManager → List Event → Prop
  | _, [] => False
  | m, e :: es => Consumes sha3 m h e ∨ Consumed h (m.step sha3 e) es

/-- The reveal goes back to a registration of the run by its sender, which
entered the commitment and which no reveal has used since; the height is at
least `MinRevealBlocks` above the stamp and not past the timeout. -/
def InTime (cfg : CommitRevealConfig) (es : List Event) (tx : Transaction) : Prop :=
  ∃ h pre post, revealKey sha3 tx = some h ∧
    es = pre ++ .registerCommitment h tx.fromAddr :: post ∧
    (after sha3 cfg pre).commits[h]? = none ∧
    (after sha3 cfg (pre ++ [.registerCommitment h tx.fromAddr])).commits[h]? ≠ none ∧
    ¬ Consumed sha3 h (after sha3 cfg (pre ++ [.registerCommitment h tx.fromAddr])) post ∧
    (after sha3 cfg pre).currentBlockHeight.toNat + 1 + cfg.minRevealBlocks.toNat
      ≤ (after sha3 cfg es).currentBlockHeight.toNat ∧
    (after sha3 cfg es).currentBlockHeight.toNat
      ≤ (after sha3 cfg pre).currentBlockHeight.toNat + 1 + cfg.commitTimeoutBlocks.toNat

/-- No two senders share a hash, the global cap is not met, and no reveal is
tried at the height its commitment was registered at. -/
def Careful (m : CommitRevealManager) : Event → Prop
  | .registerCommitment commitHash sender =>
    ¬ (0 < m.config.maxGlobalCommits ∧ m.config.maxGlobalCommits ≤ m.commits.size) ∧
    (∀ c ∈ m.commits[commitHash]?, c.sender = sender) ∧
    ∀ e ∈ m.commitsBySender.toList, e.1 ≠ sender → ∀ c ∈ e.2, c.commitHash ≠ commitHash
  | .consumeReveal tx =>
    ∀ p ∈ m.ownCommitment sha3 tx, p.2.blockHeight ≤ m.currentBlockHeight
  | _ => True

instance (m : CommitRevealManager) (e : Event) : Decidable (Careful sha3 m e) := by
  cases e <;> unfold Careful <;> infer_instance

/-- The events that are not another sender's. -/
def Event.own (s : Address) : Event → Bool
  | .registerCommitment _ sender => sender = s
  | .checkReveal tx | .consumeReveal tx => tx.fromAddr = s
  | .setBlockHeight _ | .cleanupExpired => true

end

/-! ## What the calls do -/

section
variable {sha3 : Bytes → Hash} {m : CommitRevealManager}

@[simp] theorem commits_evictRevealed : m.evictRevealed.commits = m.commits := by
  unfold evictRevealed; split <;> rfl

@[simp] theorem commitsBySender_evictRevealed :
    m.evictRevealed.commitsBySender = m.commitsBySender := by
  unfold evictRevealed; split <;> rfl

@[simp] theorem currentBlockHeight_evictRevealed :
    m.evictRevealed.currentBlockHeight = m.currentBlockHeight := by
  unfold evictRevealed; split <;> rfl

@[simp] theorem config_evictRevealed : m.evictRevealed.config = m.config := by
  unfold evictRevealed; split <;> rfl

theorem ownCommitment_eq_some {tx : Transaction} {h : Hash} {c : Commitment} :
    m.ownCommitment sha3 tx = some (h, c) ↔
      revealKey sha3 tx = some h ∧ m.commits[h]? = some c ∧ c.sender = tx.fromAddr := by
  simp only [ownCommitment, Option.bind_eq_some_iff, Option.map_eq_some_iff,
    Option.filter_eq_some_iff, decide_eq_true_eq, Prod.mk.injEq]
  constructor
  · rintro ⟨h', hk, c', ⟨hc, hs⟩, rfl, rfl⟩
    exact ⟨hk, hc, hs⟩
  · rintro ⟨hk, hc, hs⟩
    exact ⟨h, hk, c, ⟨hc, hs⟩, rfl, rfl⟩

/-- `CheckReveal` reads and changes the sender's own commitment only. -/
theorem checkReveal_spec (sha3 : Bytes → Hash) (m : CommitRevealManager) (tx : Transaction) :
    ((m.checkReveal sha3 tx).1 = none ↔
      ∃ p ∈ m.ownCommitment sha3 tx, p.2.consumed = false ∧ m.expired p.2 = false) ∧
    (m.checkReveal sha3 tx).2 =
      match m.ownCommitment sha3 tx with
      | none => m
      | some (h, c) =>
        if c.consumed = false ∧ m.expired c then { m with commits := m.commits.erase h } else m := by
  unfold checkReveal ownCommitment revealKey
  by_cases hd : tx.data.length = crv2SaltLen
  swap
  · simp [hd]
  cases htx : tx.toAddr with
  | none => simp [hd]
  | some recipient =>
    simp only [hd, ne_eq, not_true_eq_false, if_false, if_true, Option.map_some,
      Option.bind_some]
    cases hc : m.commits[computeCommitHash sha3 recipient tx.value tx.data]? with
    | none => simp
    | some c =>
      by_cases hs : c.sender = tx.fromAddr
      · cases hcons : c.consumed <;> cases hexp : m.expired c <;>
          simp [hs, hcons, hexp, Option.filter]
      · simp [hs, Option.filter]

theorem consumeReveal_spec (sha3 : Bytes → Hash) (m : CommitRevealManager) (tx : Transaction) :
    m.consumeReveal sha3 tx =
      match m.ownCommitment sha3 tx with
      | none => (false, m)
      | some (h, c) =>
        if c.consumed then (false, m)
        else if m.expired c then (false, { m with commits := m.commits.erase h })
        else if m.Ripe c then (true, m.consume h (txHash sha3 tx) c)
        else (false, m) := by
  unfold consumeReveal ownCommitment revealKey
  by_cases hd : tx.data.length = crv2SaltLen
  swap
  · cases tx.toAddr <;> simp [hd]
  cases htx : tx.toAddr with
  | none => simp [hd]
  | some recipient =>
    simp only [hd, ne_eq, not_true_eq_false, if_false, if_true, Option.map_some,
      Option.bind_some]
    cases hc : m.commits[computeCommitHash sha3 recipient tx.value tx.data]? with
    | none => simp
    | some c =>
      by_cases hs : c.sender = tx.fromAddr
      swap
      · simp [hs, Option.filter]
      simp only [Option.filter, hs, decide_true, if_true, Option.map_some, not_true_eq_false,
        or_false]
      by_cases h0 : m.currentBlockHeight = 0 ∨ c.blockHeight = 0
      · have hr : ¬ m.Ripe c := fun hr => h0.elim hr.1 hr.2.1
        simp only [if_pos h0, if_neg hr]
      · have hr : m.Ripe c ↔
            ¬ m.currentBlockHeight - c.blockHeight < m.config.minRevealBlocks := by
          rw [not_or] at h0
          simp only [Ripe, ne_eq, h0, not_false_eq_true, true_and, UInt64.not_lt]
        simp only [if_neg h0, hr]
        split_ifs <;> rfl

/-- The sender has as many commitments as one may have. -/
abbrev Full (m : CommitRevealManager) (sender : Address) : Prop :=
  m.config.maxPendingCommits ≤ (m.commitsBySender.getD sender []).length

/-- The clean-up in front of a registration. -/
def makeRoom (m : CommitRevealManager) (sender : Address) : CommitRevealManager :=
  if m.Full sender then m.cleanupExpiredCommits sender else m

theorem registerCommitment_spec {commitHash : Hash} (sender : Address)
    (hcap : ¬ (0 < m.config.maxGlobalCommits ∧ m.config.maxGlobalCommits ≤ m.commits.size)) :
    (m.registerCommitment commitHash sender).2 =
      if m.commits.contains commitHash then m
      else if (m.makeRoom sender).Full sender then m.makeRoom sender
      else (m.makeRoom sender).record commitHash sender := by
  simp only [registerCommitment, if_neg hcap]
  by_cases hfull : m.Full sender
  · simp only [makeRoom, if_pos hfull]
    split_ifs <;> rfl
  · simp only [makeRoom, if_neg hfull]
    split_ifs <;> rfl

theorem getElem?_foldl_erase (l : List Commitment) (commits : Fmap Hash Commitment) (h : Hash) :
    (l.foldl (fun cs c => cs.erase c.commitHash) commits)[h]? =
      if ∃ c ∈ l, c.commitHash = h then none else commits[h]? := by
  induction l generalizing commits with
  | nil => simp
  | cons c l ih =>
    rw [List.foldl_cons, ih, Fmap.getElem?_erase]
    by_cases hc : c.commitHash = h
    · simp [hc]
    · simp [hc]

theorem getElem?_makeRoom {s : Address} {h : Hash} {c : Commitment}
    (hc : (m.makeRoom s).commits[h]? = some c) : m.commits[h]? = some c := by
  unfold makeRoom at hc
  split at hc
  · simp only [cleanupExpiredCommits, getElem?_foldl_erase] at hc
    split at hc
    · cases hc
    · exact hc
  · exact hc

@[simp] theorem currentBlockHeight_makeRoom (s : Address) :
    (m.makeRoom s).currentBlockHeight = m.currentBlockHeight := by
  unfold makeRoom; split <;> rfl

@[simp] theorem config_makeRoom (s : Address) : (m.makeRoom s).config = m.config := by
  unfold makeRoom; split <;> rfl

theorem getElem?_record {h k : Hash} {s : Address} : (m.record h s).commits[k]? =
    if h = k then some ⟨h, s, m.currentBlockHeight + 1, false⟩ else m.commits[k]? :=
  Fmap.getElem?_insert ..

/-- What one event does to the state. -/
inductive Effect (sha3 : Bytes → Hash) (m : CommitRevealManager) :
    Event → CommitRevealManager → Prop
  | nothing {e} (hno : ∀ h, ¬ Consumes sha3 m h e) : Effect sha3 m e m
  | room (h s) : Effect sha3 m (.registerCommitment h s) (m.makeRoom s)
  | record {h s} (hnew : m.commits[h]? = none) :
      Effect sha3 m (.registerCommitment h s) ((m.makeRoom s).record h s)
  | height (n) : Effect sha3 m (.setBlockHeight n) { m with currentBlockHeight := n }
  | drop {e tx h c} (he : e = .checkReveal tx ∨ e = .consumeReveal tx)
      (hown : m.ownCommitment sha3 tx = some (h, c)) (hno : ∀ h, ¬ Consumes sha3 m h e) :
      Effect sha3 m e { m with commits := m.commits.erase h }
  | mark {tx h c} (hown : m.ownCommitment sha3 tx = some (h, c)) :
      Effect sha3 m (.consumeReveal tx) (m.consume h (txHash sha3 tx) c)
  | clean : Effect sha3 m .cleanupExpired m.cleanupExpired.2

theorem effect_step (sha3 : Bytes → Hash) (m : CommitRevealManager) (e : Event) :
    Effect sha3 m e (m.step sha3 e) := by
  cases e with
  | registerCommitment h s =>
    by_cases hcap : 0 < m.config.maxGlobalCommits ∧ m.config.maxGlobalCommits ≤ m.commits.size
    · simp only [step, registerCommitment, if_pos hcap]
      split <;> exact .nothing fun _ => id
    simp only [step, registerCommitment_spec s hcap]
    split
    · exact .nothing fun _ => id
    next hnew =>
    split
    · exact .room h s
    · exact .record (by simpa using hnew)
  | setBlockHeight height =>
    simp only [step, setBlockHeight]
    split
    · exact .height height
    · exact .nothing fun _ => id
  | checkReveal tx =>
    simp only [step, (checkReveal_spec sha3 m tx).2]
    split
    · exact .nothing fun _ => id
    · next hown =>
      split
      · exact .drop (.inl rfl) hown fun _ => id
      · exact .nothing fun _ => id
  | consumeReveal tx =>
    have hspec := consumeReveal_spec sha3 m tx
    have hno : (m.consumeReveal sha3 tx).1 = false → ∀ h, ¬ Consumes sha3 m h (.consumeReveal tx) :=
      fun hf h hc => Bool.false_ne_true (hf.symm.trans hc.2)
    simp only [step]
    split at hspec
    · rw [hspec] at hno ⊢
      exact .nothing (hno rfl)
    · next hown =>
      split_ifs at hspec <;> rw [hspec] at hno ⊢
      · exact .nothing (hno rfl)
      · exact .drop (.inr rfl) hown (hno rfl)
      · exact .mark hown
      · exact .nothing (hno rfl)
  | cleanupExpired => exact .clean

/-! ## Where a commitment comes from -/

/-- After a step a commitment is as it was and was not consumed, or it was
registered or marked. -/
theorem commits_step {e : Event} {h : Hash} {c : Commitment}
    (hc : (m.step sha3 e).commits[h]? = some c) : (m.commits[h]? = some c ∧ ¬ Consumes sha3 m h e) ∨
      (e = .registerCommitment h c.sender ∧ m.commits[h]? = none ∧
        c.blockHeight = m.currentBlockHeight + 1) ∨
      (c.consumed = true ∧
        ∃ c₀, m.commits[h]? = some c₀ ∧ c.sender = c₀.sender ∧ c.blockHeight = c₀.blockHeight) := by
  have heff := effect_step sha3 m e
  generalize m.step sha3 e = m' at hc heff
  cases heff with
  | nothing hno => exact .inl ⟨hc, hno h⟩
  | room k s => exact .inl ⟨getElem?_makeRoom hc, id⟩
  | @record k s hnew =>
    rw [getElem?_record] at hc
    split at hc
    · next heq =>
      obtain rfl := Option.some.inj hc
      subst heq
      exact .inr (.inl ⟨rfl, hnew, by simp⟩)
    · exact .inl ⟨getElem?_makeRoom hc, id⟩
  | height n => exact .inl ⟨hc, id⟩
  | @drop _ tx k c₀ he hown hno =>
    rw [Fmap.getElem?_erase] at hc
    split at hc
    · cases hc
    · exact .inl ⟨hc, hno h⟩
  | @mark tx k c₀ hown =>
    obtain ⟨hkey, hk, -⟩ := ownCommitment_eq_some.mp hown
    simp only [consume, commits_evictRevealed, Fmap.getElem?_insert] at hc
    split at hc
    · next heq =>
      obtain rfl := Option.some.inj hc
      exact .inr (.inr ⟨rfl, c₀, heq ▸ hk, rfl, rfl⟩)
    · next hne =>
      exact .inl ⟨hc, fun hk' => hne (Option.some.inj (hkey.symm.trans hk'.1))⟩
  | clean =>
    simp only [cleanupExpired, commits_evictRevealed, getElem?_filter'] at hc
    exact .inl ⟨(Option.filter_eq_some_iff.mp hc).1, id⟩

theorem consumed_append {h : Hash} {m : CommitRevealManager} {es : List Event} {e : Event} :
    Consumed sha3 h m (es ++ [e]) ↔ Consumed sha3 h m es ∨ Consumes sha3 (m.run sha3 es) h e := by
  induction es generalizing m with
  | nil => simp [Consumed, run]
  | cons e' es ih =>
    simp only [List.cons_append, Consumed, ih]
    tauto

/-- A commitment of a run goes back to a registration by its sender, and
while it is not marked no reveal has used it since. -/
theorem exists_registration {cfg : CommitRevealConfig} {es : List Event} {h : Hash}
    {c : Commitment} (hc : (after sha3 cfg es).commits[h]? = some c) :
    ∃ pre post, es = pre ++ .registerCommitment h c.sender :: post ∧
      (after sha3 cfg pre).commits[h]? = none ∧
      (after sha3 cfg (pre ++ [.registerCommitment h c.sender])).commits[h]? ≠ none ∧
      c.blockHeight = (after sha3 cfg pre).currentBlockHeight + 1 ∧
      (c.consumed = false → ¬ Consumed sha3 h (after sha3 cfg
        (pre ++ [.registerCommitment h c.sender])) post) := by
  induction es using List.reverseRecOn generalizing c with
  | nil => simp [run] at hc
  | append_singleton es e ih =>
    rw [after, run, List.foldl_append] at hc
    have hpresent : (after sha3 cfg (es ++ [e])).commits[h]? ≠ none := by
      rw [after, run, List.foldl_append]
      exact ne_of_eq_of_ne hc (Option.some_ne_none _)
    rcases commits_step hc with ⟨hold, hnot⟩ | ⟨rfl, hnone, hheight⟩ | ⟨hmark, c₀, hold, hs, hb⟩
    · obtain ⟨pre, post, rfl, hfresh, hentered, hheight, hunused⟩ := ih hold
      refine ⟨pre, post ++ [e], by simp, hfresh, hentered, hheight, fun hcons hrev => ?_⟩
      rcases consumed_append.mp hrev with hrev | hrev
      · exact hunused hcons hrev
      · refine hnot ?_
        simpa [run] using hrev
    · exact ⟨es, [], rfl, hnone, hpresent, hheight, fun _ => id⟩
    · obtain ⟨pre, post, rfl, hfresh, hentered, hheight, -⟩ := ih hold
      exact ⟨pre, post ++ [e], by simp [hs], hfresh, hs ▸ hentered, hb.trans hheight, fun hf => by simp_all⟩

theorem config_step (m : CommitRevealManager) (e : Event) : (m.step sha3 e).config = m.config := by
  have heff := effect_step sha3 m e
  generalize m.step sha3 e = m' at heff
  cases heff with
  | room | record => simp [record]
  | mark | clean => simp [consume, cleanupExpired]
  | _ => rfl

theorem config_run (m : CommitRevealManager) (es : List Event) : (m.run sha3 es).config = m.config := by
  induction es generalizing m with
  | nil => rfl
  | cons e es ih => exact (ih _).trans (config_step m e)

/-- A consumed reveal: registered by its sender, not used since, in time,
and not too early if the height is not below the stamp. -/
theorem inTime_of_consumed {cfg : CommitRevealConfig} {es : List Event} {tx : Transaction}
    (hcareful : Careful sha3 (after sha3 cfg es) (.consumeReveal tx))
    (hcons : ((after sha3 cfg es).consumeReveal sha3 tx).1 = true) : InTime sha3 cfg es tx := by
  have hcfg : (after sha3 cfg es).config = cfg := config_run _ es
  rw [consumeReveal_spec] at hcons
  cases hown : (after sha3 cfg es).ownCommitment sha3 tx with
  | none => simp [hown] at hcons
  | some p =>
    obtain ⟨h, c⟩ := p
    obtain ⟨hkey, hc, hsender⟩ := ownCommitment_eq_some.mp hown
    have hle : c.blockHeight ≤ (after sha3 cfg es).currentBlockHeight :=
      hcareful (h, c) hown
    simp only [hown] at hcons
    split at hcons
    · cases hcons
    next hunused =>
    split at hcons
    · cases hcons
    next hlive =>
    split at hcons
    swap
    · cases hcons
    next hripe =>
    obtain ⟨-, hstamp, hmin⟩ := hripe
    obtain ⟨pre, post, hes, hfresh, hentered, hheight, hsince⟩ := exists_registration hc
    rw [hsender] at hes hentered hsince
    refine ⟨h, pre, post, hkey, hes, hfresh, hentered, hsince (by simpa using hunused), ?_, ?_⟩
    all_goals
      simp only [expired, decide_eq_true_eq, UInt64.not_lt, hcfg] at hlive
      rw [hcfg] at hmin
      have hB : c.blockHeight.toNat
          = (after sha3 cfg pre).currentBlockHeight.toNat + 1 := by
        have hne : c.blockHeight.toNat ≠ 0 := fun h0 => hstamp (UInt64.toNat_inj.mp h0)
        rw [hheight, UInt64.toNat_add] at hne ⊢
        have := UInt64.toNat_lt (after sha3 cfg pre).currentBlockHeight
        simp only [UInt64.toNat_one] at hne ⊢
        omega
      rw [UInt64.le_iff_toNat_le] at hle hmin hlive
      rw [UInt64.toNat_sub_of_le _ _ (UInt64.le_iff_toNat_le.mpr hle)] at hmin
      rw [UInt64.toNat_add] at hlive
      have := Nat.mod_le (c.blockHeight.toNat + cfg.commitTimeoutBlocks.toNat) (2 ^ 64)
      omega

/-! ## What one sender sees -/

/-- `s` has a record of the hash, in the map by hash or in its list. -/
def Recorded (m : CommitRevealManager) (h : Hash) (s : Address) : Prop :=
  (∃ c, m.commits[h]? = some c ∧ c.sender = s) ∨
    ∃ c ∈ m.commitsBySender.getD s [], c.commitHash = h

/-- No hash is on record for two senders. -/
def Apart (m : CommitRevealManager) : Prop :=
  ∀ h s t, m.Recorded h s → m.Recorded h t → s = t

/-- `v` is the part of `m` that is about the sender `s`. -/
structure Restricts (s : Address) (m v : CommitRevealManager) : Prop where
  height : v.currentBlockHeight = m.currentBlockHeight
  config : v.config = m.config
  commits : ∀ h : Hash, v.commits[h]? = (m.commits[h]?).filter fun c => c.sender = s
  list : v.commitsBySender.getD s [] = m.commitsBySender.getD s []

theorem getD_cleanupExpiredCommits (m : CommitRevealManager) (t s : Address) :
    (m.cleanupExpiredCommits t).commitsBySender.getD s [] =
      if t = s then (m.commitsBySender.getD s []).filter fun c => !m.expired c
      else m.commitsBySender.getD s [] := by
  simp only [cleanupExpiredCommits]
  by_cases ht : t = s
  · subst ht
    split
    · next hnil => rw [getD_erase_self, if_pos rfl, hnil]
    · rw [getD_insert_self, if_pos rfl]
  · rw [if_neg ht]
    split <;> simp [getD_eq_getD_getElem?, Fmap.getElem?_erase_ne _ ht,
      Fmap.getElem?_insert_ne _ _ ht]

theorem mem_getD_makeRoom {t s : Address} {c : Commitment}
    (hc : c ∈ (m.makeRoom t).commitsBySender.getD s []) : c ∈ m.commitsBySender.getD s [] := by
  unfold makeRoom at hc
  split at hc
  · rw [getD_cleanupExpiredCommits] at hc
    split at hc
    · exact List.mem_of_mem_filter hc
    · exact hc
  · exact hc

theorem getD_cleanupExpired (m : CommitRevealManager) (s : Address) :
    m.cleanupExpired.2.commitsBySender.getD s [] =
      (m.commitsBySender.getD s []).filter fun c => !m.expired c := by
  simp only [cleanupExpired, commitsBySender_evictRevealed]
  rw [getD_eq_getD_getElem?, getElem?_filterMap',
    getD_eq_getD_getElem?]
  cases m.commitsBySender[s]? with
  | none => rfl
  | some l =>
    simp only [Option.bind_some, Option.getD_some]
    split
    · next hl => rw [hl]; rfl
    · rfl

theorem getD_commitsBySender_step {e : Event} {s : Address} {c : Commitment}
    (hc : c ∈ (m.step sha3 e).commitsBySender.getD s []) :
    c ∈ m.commitsBySender.getD s [] ∨ e = .registerCommitment c.commitHash s := by
  have heff := effect_step sha3 m e
  generalize m.step sha3 e = m' at hc heff
  cases heff with
  | room h t => exact .inl (mem_getD_makeRoom hc)
  | @record h t hnew =>
    simp only [record, getD_insert, Std.compare_eq_iff_eq] at hc
    split at hc
    · next hs =>
      subst hs
      rcases List.mem_append.mp hc with hc | hc
      · exact .inl (mem_getD_makeRoom hc)
      · obtain rfl := List.mem_singleton.mp hc
        exact .inr rfl
    · exact .inl (mem_getD_makeRoom hc)
  | mark => exact .inl (by simpa [consume] using hc)
  | clean =>
    rw [getD_cleanupExpired] at hc
    exact .inl (List.mem_of_mem_filter hc)
  | _ => exact .inl hc

theorem recorded_step {e : Event} {h : Hash} {s : Address} (hr : (m.step sha3 e).Recorded h s) :
    m.Recorded h s ∨ e = .registerCommitment h s := by
  rcases hr with ⟨c, hc, rfl⟩ | ⟨c, hc, rfl⟩
  · rcases commits_step hc with ⟨hold, -⟩ | ⟨he, -, -⟩ | ⟨-, c₀, hold, hs, -⟩
    · exact .inl (.inl ⟨c, hold, rfl⟩)
    · exact .inr he
    · exact .inl (.inl ⟨c₀, hold, hs.symm⟩)
  · exact (getD_commitsBySender_step hc).imp_left fun hold => .inr ⟨c, hold, rfl⟩

theorem Careful.recorded {h : Hash} {s t : Address}
    (hcareful : Careful sha3 m (.registerCommitment h s)) (hr : m.Recorded h t) : t = s := by
  rcases hr with ⟨c, hc, rfl⟩ | ⟨c, hc, hh⟩
  · exact hcareful.2.1 c hc
  · by_contra hne
    cases hl : m.commitsBySender[t]? with
    | none => simp [getD_eq_getD_getElem?, hl] at hc
    | some l =>
      rw [getD_eq_getD_getElem?, hl] at hc
      exact hcareful.2.2 (t, l) (mem_toList_iff_getElem?_eq_some.mpr hl) hne c hc hh

theorem Apart.step {e : Event} (h : m.Apart) (hcareful : Careful sha3 m e) :
    (m.step sha3 e).Apart := by
  intro k s t hs ht
  rcases recorded_step hs with hs' | rfl
  · rcases recorded_step ht with ht' | rfl
    · exact h k s t hs' ht'
    · exact hcareful.recorded hs'
  · rcases recorded_step ht with ht' | ht'
    · exact (hcareful.recorded ht').symm
    · exact (Event.registerCommitment.inj ht').2

namespace Restricts

variable {s : Address} {v : CommitRevealManager}

theorem expired (h : Restricts s m v) (c : Commitment) : v.expired c = m.expired c := by
  simp only [CommitRevealManager.expired, h.height, h.config]

theorem ripe (h : Restricts s m v) (c : Commitment) : v.Ripe c ↔ m.Ripe c := by
  rw [Ripe, Ripe, h.height, h.config]

theorem ownCommitment (h : Restricts s m v) {tx : Transaction} (htx : tx.fromAddr = s) :
    v.ownCommitment sha3 tx = m.ownCommitment sha3 tx := by
  subst htx
  simp only [CommitRevealManager.ownCommitment, h.commits, Option.filter_filter, Bool.and_self]

theorem size_le (h : Restricts s m v) : v.commits.size ≤ m.commits.size := by
  have heq : v.commits = m.commits.filter fun _ c => c.sender = s := by
    refine ext_getElem? fun k => ?_
    rw [h.commits, getElem?_filter']
  rw [heq]
  exact size_filter_le_size

theorem congr {m' : CommitRevealManager} (h : Restricts s m v)
    (hheight : m'.currentBlockHeight = m.currentBlockHeight) (hconfig : m'.config = m.config)
    (hcommits : ∀ (k : Hash) (c : Commitment), c.sender = s →
      (m'.commits[k]? = some c ↔ m.commits[k]? = some c))
    (hlist : m'.commitsBySender.getD s [] = m.commitsBySender.getD s []) : Restricts s m' v where
  height := h.height.trans hheight.symm
  config := h.config.trans hconfig.symm
  commits k := by
    refine (h.commits k).trans (Option.ext fun c => ?_)
    simp only [Option.filter_eq_some_iff, decide_eq_true_eq]
    exact and_congr_left fun hs => (hcommits k c hs).symm
  list := h.list.trans hlist.symm

theorem other {m' : CommitRevealManager} (h : Restricts s m v) {k : Hash} {c : Commitment}
    (hc : m.commits[k]? = some c) (hs : c.sender ≠ s)
    (hheight : m'.currentBlockHeight = m.currentBlockHeight) (hconfig : m'.config = m.config)
    (hk : ∀ d, m'.commits[k]? = some d → d.sender = c.sender)
    (hrest : ∀ k', k ≠ k' → m'.commits[k']? = m.commits[k']?)
    (hlist : m'.commitsBySender = m.commitsBySender) : Restricts s m' v := by
  refine h.congr hheight hconfig (fun k' d hd => ?_) (by rw [hlist])
  by_cases hkk : k = k'
  · subst hkk
    refine iff_of_false (fun hd' => hs ((hk d hd').symm.trans hd)) fun hd' => hs ?_
    rw [Option.some.inj (hc.symm.trans hd'), hd]
  · rw [hrest k' hkk]

section
variable (h : Restricts s m v)
include h

theorem erase (k : Hash) :
    Restricts s { m with commits := m.commits.erase k } { v with commits := v.commits.erase k } where
  height := h.height
  config := h.config
  commits h' := by
    simp only [Fmap.getElem?_erase]
    split
    · rfl
    · exact h.commits h'
  list := h.list

theorem consume (k txHash : Hash) {c : Commitment} (hs : c.sender = s) :
    Restricts s (m.consume k txHash c) (v.consume k txHash c) where
  height := by simpa [CommitRevealManager.consume] using h.height
  config := by simpa [CommitRevealManager.consume] using h.config
  commits h' := by
    simp only [CommitRevealManager.consume, commits_evictRevealed, Fmap.getElem?_insert]
    split
    · simp [Option.filter, hs]
    · exact h.commits h'
  list := by simpa [CommitRevealManager.consume] using h.list

theorem makeRoom : Restricts s (m.makeRoom s) (v.makeRoom s) := by
  have hfull : v.Full s ↔ m.Full s := by rw [Full, Full, h.config, h.list]
  unfold CommitRevealManager.makeRoom
  simp only [hfull]
  split
  swap
  · exact h
  have hexp : v.expired = m.expired := funext h.expired
  refine ⟨h.height, h.config, fun k => ?_, ?_⟩
  · simp only [cleanupExpiredCommits, getElem?_foldl_erase, h.list, hexp]
    split
    · rfl
    · exact h.commits k
  · simp only [getD_cleanupExpiredCommits, if_true, h.list, hexp]

theorem record (k : Hash) : Restricts s (m.record k s) (v.record k s) where
  height := h.height
  config := h.config
  commits h' := by
    simp only [getElem?_record, h.height]
    split
    · simp [Option.filter]
    · exact h.commits h'
  list := by simp [CommitRevealManager.record, h.list, h.height]

/-- The sender's own events do to its part what they do to the whole. -/
theorem own {e : Event} (hcareful : Careful sha3 m e)
    (hown : e.own s = true) : Restricts s (m.step sha3 e) (v.step sha3 e) := by
  cases e with
  | registerCommitment commitHash sender =>
    obtain rfl : sender = s := by simpa [Event.own] using hown
    obtain ⟨hcap, howner, -⟩ := hcareful
    have hcapv : ¬ (0 < v.config.maxGlobalCommits ∧ v.config.maxGlobalCommits ≤ v.commits.size) := by
      have := h.size_le
      rw [h.config]
      omega
    have hcontains : v.commits.contains commitHash = m.commits.contains commitHash := by
      rw [contains_eq_isSome_getElem?, contains_eq_isSome_getElem?,
        h.commits]
      cases hc : m.commits[commitHash]? with
      | none => rfl
      | some c => simp [Option.filter, howner c hc]
    have hfull : (v.makeRoom sender).Full sender ↔ (m.makeRoom sender).Full sender := by
      rw [Full, Full, h.makeRoom.config, h.makeRoom.list]
    simp only [step, registerCommitment_spec sender hcap, registerCommitment_spec sender hcapv,
      hcontains, hfull]
    split
    · exact h
    split
    · exact h.makeRoom
    · exact h.makeRoom.record commitHash
  | setBlockHeight height =>
    simp only [step, setBlockHeight, h.height]
    split
    · exact ⟨rfl, h.config, h.commits, h.list⟩
    · exact h
  | checkReveal tx =>
    have htx : tx.fromAddr = s := by simpa [Event.own] using hown
    simp only [step, (checkReveal_spec sha3 _ tx).2, h.ownCommitment htx, h.expired]
    split
    · exact h
    · split
      · exact h.erase _
      · exact h
  | consumeReveal tx =>
    have htx : tx.fromAddr = s := by simpa [Event.own] using hown
    simp only [step, consumeReveal_spec, h.ownCommitment htx, h.expired, h.ripe]
    split
    · exact h
    next k c hc =>
    have hs : c.sender = s := (ownCommitment_eq_some.mp hc).2.2.trans htx
    split_ifs
    · exact h
    · exact h.erase k
    · exact h.consume k _ hs
    · exact h
  | cleanupExpired =>
    have hexp : v.expired = m.expired := funext h.expired
    refine ⟨?_, ?_, fun k => ?_, ?_⟩
    · simpa [step, cleanupExpired] using h.height
    · simpa [step, cleanupExpired] using h.config
    · simp only [step, cleanupExpired, commits_evictRevealed,
        getElem?_filter', h.commits, hexp, Option.filter_filter, Bool.and_comm]
    · simp only [step, getD_cleanupExpired, h.list, hexp]

theorem foreign (hapart : m.Apart) {e : Event} (hcareful : Careful sha3 m e)
    (hown : e.own s = false) : Restricts s (m.step sha3 e) v := by
  have hroom : ∀ t, t ≠ s → Restricts s (m.makeRoom t) v := by
    intro t hne
    unfold CommitRevealManager.makeRoom
    split
    swap
    · exact h
    refine h.congr rfl rfl (fun k c hs => ?_) (by rw [getD_cleanupExpiredCommits, if_neg hne])
    simp only [cleanupExpiredCommits, getElem?_foldl_erase]
    split
    · next hex =>
      obtain ⟨d, hd, rfl⟩ := hex
      refine iff_of_false (fun hf => nomatch hf) fun hc => hne ?_
      exact hapart d.commitHash t s (.inr ⟨d, List.mem_of_mem_filter hd, rfl⟩) (.inl ⟨c, hc, hs⟩)
    · exact Iff.rfl
  have heff := effect_step sha3 m e
  generalize m.step sha3 e = m' at heff
  cases heff with
  | nothing => exact h
  | room k t => exact hroom t (by simpa [Event.own] using hown)
  | @record k t hnew =>
    have hne : t ≠ s := by simpa [Event.own] using hown
    refine (hroom t hne).congr rfl rfl (fun k' c hs => ?_) ?_
    · rw [getElem?_record]
      split
      · next hk =>
        subst hk
        refine iff_of_false (fun hc => hne ?_) fun hc => ?_
        · obtain rfl := Option.some.inj hc
          exact hs
        · rw [getElem?_makeRoom hc] at hnew
          cases hnew
      · exact Iff.rfl
    · simp only [CommitRevealManager.record, getD_insert, Std.compare_eq_iff_eq,
        if_neg hne]
  | height | clean => cases hown
  | @drop _ tx k c he hc hno =>
    have hne : tx.fromAddr ≠ s := by
      rcases he with rfl | rfl <;> simpa [Event.own] using hown
    obtain ⟨-, hc, hs⟩ := ownCommitment_eq_some.mp hc
    refine h.other hc (hs ▸ hne) rfl rfl (fun d hd => ?_)
      (fun k' hk => Fmap.getElem?_erase_ne _ hk) rfl
    simp at hd
  | @mark tx k c hc =>
    have hne : tx.fromAddr ≠ s := by simpa [Event.own] using hown
    obtain ⟨-, hc, hs⟩ := ownCommitment_eq_some.mp hc
    refine h.other hc (hs ▸ hne) ?_ ?_ (fun d hd => ?_) (fun k' hk => ?_) ?_
    all_goals simp only [CommitRevealManager.consume, currentBlockHeight_evictRevealed,
      config_evictRevealed, commitsBySender_evictRevealed, commits_evictRevealed] at *
    · rw [Fmap.getElem?_insert_self] at hd
      obtain rfl := Option.some.inj hd
      rfl
    · rw [Fmap.getElem?_insert_ne _ _ hk]

end

end Restricts

/-- After a careful run the part of a sender is what its own events alone
make of it. -/
theorem restricts_run {es : List Event} {s : Address} {v : CommitRevealManager}
    (h : Restricts s m v) (hapart : m.Apart) (hes : Allowed (step sha3) (Careful sha3) m es) :
    Restricts s (m.run sha3 es) (v.run sha3 (es.filter (Event.own s))) := by
  induction es generalizing m v with
  | nil => exact h
  | cons e es ih =>
    obtain ⟨hcareful, hes⟩ := hes
    cases hown : e.own s with
    | true =>
      rw [List.filter_cons_of_pos hown]
      exact ih (h.own hcareful hown) (hapart.step hcareful) hes
    | false =>
      rw [List.filter_cons_of_neg (by simp [hown])]
      exact ih (h.foreign hapart hcareful hown) (hapart.step hcareful) hes

theorem restricts_init (cfg : CommitRevealConfig) (s : Address) :
    Restricts s { config := cfg } { config := cfg } :=
  ⟨rfl, rfl, fun h => by simp, rfl⟩

theorem apart_init (cfg : CommitRevealConfig) : Apart { config := cfg } := by
  rintro h s t (⟨c, hc, -⟩ | ⟨c, hc, -⟩) - <;> simp at hc

theorem Restricts.answers {v : CommitRevealManager} (sha3 : Bytes → Hash) {tx : Transaction}
    (h : Restricts tx.fromAddr m v) :
    ((m.checkReveal sha3 tx).1 = none ↔ (v.checkReveal sha3 tx).1 = none) ∧
      (m.consumeReveal sha3 tx).1 = (v.consumeReveal sha3 tx).1 := by
  constructor
  · simp only [(checkReveal_spec sha3 _ tx).1, h.ownCommitment rfl, h.expired]
  · simp only [consumeReveal_spec, h.ownCommitment rfl, h.expired, h.ripe]
    split
    · rfl
    · split_ifs <;> rfl

/-- In every careful run: a reveal is consumed by the sender who registered
it, once per registration, when the height is at least `MinRevealBlocks`
above the stamp and not past the timeout; and two careful runs with the same
events of one sender, the blocks and clean-ups included, answer its reveals
alike. -/
theorem commit_reveal (sha3 : Bytes → Hash) (cfg : CommitRevealConfig) {es : List Event}
    (hes : Allowed (step sha3) (Careful sha3) { config := cfg } es) :
    (∀ tx, Careful sha3 (after sha3 cfg es) (.consumeReveal tx) →
      ((after sha3 cfg es).consumeReveal sha3 tx).1 = true → InTime sha3 cfg es tx) ∧
    (∀ es', Allowed (step sha3) (Careful sha3) { config := cfg } es' → ∀ tx : Transaction,
      es.filter (Event.own tx.fromAddr) = es'.filter (Event.own tx.fromAddr) →
      (((after sha3 cfg es).checkReveal sha3 tx).1 = none ↔
        ((after sha3 cfg es').checkReveal sha3 tx).1 = none) ∧
      ((after sha3 cfg es).consumeReveal sha3 tx).1
        = ((after sha3 cfg es').consumeReveal sha3 tx).1) := by
  refine ⟨fun tx => inTime_of_consumed, fun es' hes' tx hsame => ?_⟩
  have hleft := (restricts_run (restricts_init cfg tx.fromAddr) (apart_init cfg) hes).answers sha3
  have hright := (restricts_run (restricts_init cfg tx.fromAddr) (apart_init cfg) hes').answers sha3
  rw [hsame] at hleft
  exact ⟨hleft.1.trans hright.1.symm, hleft.2.trans hright.2.symm⟩

/-- A reveal of ten coins to the zero address, with a salt of zeros. -/
def zeroReveal : Transaction where
  toAddr := some (zeroArr 20)
  value := some (10 ^ 19)
  data := List.replicate 32 0

/-- SHA3-256 on the content of that reveal. -/
def zeroRevealSha3 (b : Bytes) : Hash :=
  if b = List.replicate 20 0 ++ bigEndian 32 (10 ^ 19) ++ List.replicate 32 0 then
    copyInto 32 (bigEndian 32 0x8dee178fbf7806d2c35889b37f14c715954c7232411fe61e3c027241d48fdfc7)
  else zeroArr 32

def zeroRevealKey (sha3 : Bytes → Hash) : Hash :=
  computeCommitHash sha3 (zeroArr 20) (some (10 ^ 19)) (List.replicate 32 0)

/-- The commitment, one of another sender, and two blocks. -/
def zeroRevealRun : List Event :=
  [.setBlockHeight 5, .registerCommitment (zeroRevealKey zeroRevealSha3) (zeroArr 20),
    .registerCommitment (zeroArr 32) (copyInto 20 [1]), .setBlockHeight 7]

theorem commit_reveal_zeroReveal :
    ((run zeroRevealSha3 {} zeroRevealRun).consumeReveal zeroRevealSha3 zeroReveal).1 = true ∧
      ∃ h pre post, zeroRevealRun = pre ++ .registerCommitment h (zeroArr 20) :: post ∧
        (run zeroRevealSha3 {} pre).currentBlockHeight.toNat + 1 + 1
          ≤ (run zeroRevealSha3 {} zeroRevealRun).currentBlockHeight.toNat := by
  have hes : Allowed (step zeroRevealSha3) (Careful zeroRevealSha3) {} zeroRevealRun := by
    decide +kernel
  have hcons : ((run zeroRevealSha3 {} zeroRevealRun).consumeReveal zeroRevealSha3 zeroReveal).1
      = true := by decide +kernel
  obtain ⟨h, pre, post, -, hsplit, -, -, -, hdelay, -⟩ :=
    (commit_reveal zeroRevealSha3 defaultCommitRevealConfig hes).1 zeroReveal (by decide +kernel) hcons
  exact ⟨hcons, h, pre, post, hsplit, hdelay⟩

/-- At the height of the registration the reveal is consumed, and a sender
who registers the hash first keeps the other from revealing; whatever the
hash function is. -/
theorem commit_reveal_broken :
    (¬ ∃ sha3 : Bytes → Hash, ∀ es tx, ((run sha3 {} es).consumeReveal sha3 tx).1 = true →
      ∃ h pre post, es = pre ++ .registerCommitment h tx.fromAddr :: post ∧
        (run sha3 {} pre).currentBlockHeight.toNat + 1 + 1
          ≤ (run sha3 {} es).currentBlockHeight.toNat) ∧
    ¬ ∃ sha3 : Bytes → Hash, ∀ es es' (tx : Transaction),
      es.filter (Event.own tx.fromAddr) = es'.filter (Event.own tx.fromAddr) →
      (((run sha3 {} es).checkReveal sha3 tx).1 = none ↔
        ((run sha3 {} es').checkReveal sha3 tx).1 = none) := by
  have hown : ∀ (sha3 : Bytes → Hash) (m : CommitRevealManager) {c : Commitment},
      m.commits[zeroRevealKey sha3]? = some c → c.sender = zeroArr 20 →
      m.ownCommitment sha3 zeroReveal = some (zeroRevealKey sha3, c) :=
    fun sha3 m c hc hs => ownCommitment_eq_some.mpr ⟨rfl, hc, hs⟩
  constructor
  · rintro ⟨sha3, hlaw⟩
    have hcons : ((run sha3 {} [.setBlockHeight 5,
        .registerCommitment (zeroRevealKey sha3) (zeroArr 20)]).consumeReveal sha3 zeroReveal).1
          = true := by
      rw [consumeReveal_spec, hown sha3 _ (Fmap.getElem?_insert_self ..) rfl]
      rfl
    obtain ⟨h, pre, post, hsplit, hdelay⟩ := hlaw _ _ hcons
    rcases pre with _ | ⟨e, _ | ⟨e', pre⟩⟩
    · simp at hsplit
    · obtain ⟨rfl, -⟩ := List.cons.inj hsplit
      have hlt : 5 + 1 + 1 ≤ 5 := hdelay
      omega
    · simp at hsplit
  · rintro ⟨sha3, hlaw⟩
    let mallory : Event := .registerCommitment (zeroRevealKey sha3) (copyInto 20 [1])
    let alice : Event := .registerCommitment (zeroRevealKey sha3) (zeroArr 20)
    have hfree := (checkReveal_spec sha3 (run sha3 {} [alice]) zeroReveal).1.mpr
      ⟨_, hown sha3 _ (Fmap.getElem?_insert_self ..) rfl, rfl, rfl⟩
    have hopen := (hlaw [mallory, alice] [alice] zeroReveal rfl).mpr hfree
    have hfirst : (run sha3 {} [mallory]).commits[zeroRevealKey sha3]?
        = some ⟨zeroRevealKey sha3, copyInto 20 [1], 1, false⟩ := Fmap.getElem?_insert_self ..
    have hsecond : run sha3 {} [mallory, alice] = run sha3 {} [mallory] := by
      have hthere : (run sha3 {} [mallory]).commits.contains (zeroRevealKey sha3) = true := by
        rw [contains_eq_isSome_getElem?, hfirst]
        rfl
      change ((run sha3 {} [mallory]).registerCommitment _ _).2 = _
      rw [registerCommitment, if_pos hthere]
    rw [hsecond] at hopen
    obtain ⟨⟨k, c⟩, hp, -⟩ := (checkReveal_spec sha3 _ zeroReveal).1.mp hopen
    obtain ⟨hkey, hc, hs⟩ := ownCommitment_eq_some.mp hp
    obtain rfl : zeroRevealKey sha3 = k := Option.some.inj hkey
    obtain rfl := Option.some.inj (hfirst.symm.trans hc)
    have hzero : copyInto 20 [1] = zeroArr 20 := hs
    exact absurd hzero (by decide)

end

end CommitRevealManager

end Qau.Txpool
