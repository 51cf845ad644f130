import Qau.StateOpen
import Qau.VerkleReopen

/-!
# Snapshots and reverts

`RevertToSnapshot` puts back the dirty state that `Snapshot` has copied. It
does not put back the account cache, and a setter that finds its account in
the cache writes through the cached pointer. So a revert is exact as long
as no setter since the snapshot has met an account that was cached and not
dirty (`StateOp.Detached`); `revert_exact` is the theorem.

Two lemmas carry it. In every reachable state the pointers of different
addresses differ (`reachable_tidy`), so a setter changes one address only;
and `Since` collects what a run after the snapshot leaves alone.
-/

namespace Qau

open Heap

variable {addr : Address} {c : Crypto} {r : Ref} {s s' s₀ : StateDB}

/-! ## Operations -/

/-- The calls between two commits. -/
inductive StateOp where
  | setNonce (addr : Address) (nonce : UInt64)
  | setBalance (addr : Address) (balance : Int)
  | addBalance (addr : Address) (amount : Int)
  | subBalance (addr : Address) (amount : Int)
  | addBalanceReturn (addr : Address) (amount : Int)
  | incrementNonce (addr : Address)
  | setAccount (addr : Address) (acc : Account)
  | setStorage (addr : Address) (key value : Hash)
  | setCode (addr : Address) (code : Bytes)
  | selfDestruct (addr : Address)
  | selfDestructToBeneficiary (addr beneficiary : Address)
  | setTransientState (addr : Address) (key value : Hash)
  | addLog (log : Log)
  | addAddressToAccessList (addr : Address)
  | addSlotToAccessList (addr : Address) (slot : Hash)
  | getStorage (addr : Address) (key : Hash)
  | snapshot
  | revertToSnapshot (id : Int)
  | releaseSnapshot (id : Int)

namespace StateDB

variable {st : Stage} {op : StateOp}

/-- A call; one that returns an error changes nothing. -/
def step (c : Crypto) (s : StateDB) : StateOp → StateDB
  | .setNonce addr nonce => s.setNonce addr nonce
  | .setBalance addr balance => s.setBalance addr balance
  | .addBalance addr amount => (s.addBalance addr amount).toOption.getD s
  | .subBalance addr amount => (s.subBalance addr amount).toOption.getD s
  | .addBalanceReturn addr amount => (s.addBalanceReturn addr amount).2
  | .incrementNonce addr => s.incrementNonce addr
  | .setAccount addr acc => s.setAccount addr acc
  | .setStorage addr key value => s.setStorage addr key value
  | .setCode addr code => s.setCode c addr code
  | .selfDestruct addr => s.selfDestruct addr
  | .selfDestructToBeneficiary addr beneficiary => s.selfDestructToBeneficiary addr beneficiary
  | .setTransientState addr key value => s.setTransientState addr key value
  | .addLog log => s.addLog log
  | .addAddressToAccessList addr => s.addAddressToAccessList addr
  | .addSlotToAccessList addr slot => s.addSlotToAccessList addr slot
  | .getStorage addr key => (s.getStorageLocked addr key).2
  | .snapshot => s.snapshot.2
  | .revertToSnapshot id => s.revertToSnapshot id
  | .releaseSnapshot id => s.releaseSnapshot id

def exec (c : Crypto) (s : StateDB) (ops : List StateOp) : StateDB := ops.foldl (step c) s

/-- What an instance goes through: calls, commits that succeed or fail, and
full reverts. -/
inductive Reachable (c : Crypto) : StateDB → Prop where
  | open {d : Db} {s : StateDB} (h : openDB c d [] [] = .ok s) : Reachable c s
  | step {s : StateDB} (h : Reachable c s) (op : StateOp) : Reachable c (s.step c op)
  | commit {s : StateDB} (h : Reachable c s) (ch : CommitChoice) (height : UInt64) :
      Reachable c (s.commit c ch height).1
  | revert {s : StateDB} (h : Reachable c s) : Reachable c s.revert
  | clearTxState {s : StateDB} (h : Reachable c s) : Reachable c s.clearTxState

/-! ## Pointers of different addresses differ -/

/-- The dirty map or the cache leads from the address to the object. -/
def Owns (s : StateDB) (addr : Address) (r : Ref) : Prop :=
  s.dirtyAccounts[addr]? = some r ∨ s.accountCache[addr]? = some r

def Tidy (s : StateDB) : Prop := s.heap.Tidy s.Owns

theorem Tidy.congr (h : s.Tidy) (hheap : s'.heap = s.heap)
    (hdirty : s'.dirtyAccounts = s.dirtyAccounts) (hcache : s'.accountCache = s.accountCache) :
    s'.Tidy := by
  unfold Tidy at h ⊢
  rw [hheap]
  refine h.mono fun a r => ?_
  unfold Owns
  rw [hdirty, hcache]
  exact id

theorem Owns.of_pointer (h : s.pointer addr = some r) : s.Owns addr r := by
  rcases Option.or_eq_some_iff.mp h with h | ⟨-, h⟩
  · exact .inl h
  · exact .inr h

theorem Tidy.getAccountLocked (h : s.Tidy) (addr : Address) : s.getAccountLocked addr =
      match (s.heap.lookup s.dirtyAccounts addr).or (s.heap.lookup s.accountCache addr) with
      | some acc => .ok acc
      | none => loadRecord s.db addr := by
  unfold StateDB.getAccountLocked pointer
  cases hd : s.dirtyAccounts[addr]? with
  | some r =>
    obtain ⟨acc, hacc⟩ := read_isSome (h.valid (.inl hd))
    simp only [Option.some_or, hacc, lookup_eq_read hd]
  | none =>
    cases hc : s.accountCache[addr]? with
    | some r =>
      obtain ⟨acc, hacc⟩ := read_isSome (h.valid (.inr hc))
      simp only [Option.none_or, hacc, lookup_eq_none hd, lookup_eq_read hc]
    | none => simp only [Option.none_or, lookup_eq_none hd, lookup_eq_none hc]

theorem Tidy.setAccount (h : s.Tidy) (addr : Address) (acc : Account) :
    (s.setAccount addr acc).Tidy := by
  refine (Heap.Tidy.alloc h addr acc).mono fun a r hown => ?_
  rcases hown with hd | hc
  · by_cases ha : addr = a
    · subst ha
      rw [StateDB.setAccount, Fmap.getElem?_insert_self] at hd
      exact .inr ⟨rfl, (Option.some.inj hd).symm⟩
    · rw [StateDB.setAccount, Fmap.getElem?_insert_ne _ _ ha] at hd
      exact .inl (.inl hd)
  · exact .inl (.inr hc)

theorem Tidy.mutate (h : s.Tidy) (addr : Address) (acc : Account) : (s.mutate addr acc).Tidy := by
  unfold StateDB.mutate
  split
  · next r hr =>
    refine (Heap.Tidy.write h r acc).mono fun a r' hown => ?_
    rcases hown with hd | hc
    · by_cases ha : addr = a
      · subst ha
        rw [Fmap.getElem?_insert_self] at hd
        exact Option.some.inj hd ▸ .of_pointer hr
      · rw [Fmap.getElem?_insert_ne _ _ ha] at hd
        exact .inl hd
    · exact .inr hc
  · exact h.setAccount addr acc

theorem Tidy.restore (h : s.Tidy) (snap : StateSnapshot) : (s.restore snap).Tidy := by
  refine (Heap.Tidy.allocAll h snap.dirtyAccounts).mono fun a r hown => ?_
  rcases hown with hd | hc
  · exact .inr hd
  · exact .inl (.inr hc)

theorem Tidy.revertToSnapshot (h : s.Tidy) (id : Int) : (s.revertToSnapshot id).Tidy := by
  unfold StateDB.revertToSnapshot
  split
  · next snap _ => exact (h.restore snap).congr rfl rfl rfl
  · exact h.congr rfl rfl rfl

theorem Tidy.revert (h : s.Tidy) : s.revert.Tidy := by
  refine h.mono fun a r hown => ?_
  rcases hown with hd | hc
  · simp [StateDB.revert] at hd
  · simp [StateDB.revert] at hc

/-! ## What a call does to the accounts -/

structure SamePointers (s' s : StateDB) : Prop where
  heap : s'.heap = s.heap
  dirtyAccounts : s'.dirtyAccounts = s.dirtyAccounts
  accountCache : s'.accountCache = s.accountCache

/-- Only what is written to without touching accounts or snapshots differs. -/
structure Aside (s' s : StateDB) : Prop extends SamePointers s' s where
  db : s'.db = s.db
  snapshots : s'.snapshots = s.snapshots

theorem Aside.rfl : s.Aside s := ⟨⟨Eq.refl _, Eq.refl _, Eq.refl _⟩, Eq.refl _, Eq.refl _⟩

theorem Tidy.of_same (h : s.Tidy) (hs : s'.SamePointers s) : s'.Tidy :=
  h.congr hs.heap hs.dirtyAccounts hs.accountCache

theorem Aside.mutate (h : s'.Aside s) (addr : Address) (acc : Account) :
    (s'.mutate addr acc).Aside (s.mutate addr acc) := by
  have hp : s'.pointer addr = s.pointer addr := by
    rw [pointer, pointer, h.dirtyAccounts, h.accountCache]
  unfold StateDB.mutate
  rw [hp]
  cases s.pointer addr with
  | some r =>
    exact ⟨⟨by simp only [h.heap], by simp only [h.dirtyAccounts], h.accountCache⟩, h.db,
      h.snapshots⟩
  | none =>
    exact ⟨⟨by simp only [h.heap], by simp only [h.heap, h.dirtyAccounts], h.accountCache⟩, h.db,
      h.snapshots⟩

end StateDB

/-- The address whose object the call writes to, wherever it lies. -/
def StateOp.inPlace : StateOp → Option Address
  | .setNonce addr _ | .setBalance addr _ | .incrementNonce addr | .setCode addr _ => some addr
  | .addBalance addr amount | .subBalance addr amount | .addBalanceReturn addr amount =>
    if 0 < amount then some addr else none
  | _ => none

namespace StateDB

/-- Every call either writes through one pointer, makes a new dirty account,
goes back to a snapshot, works on the stack of snapshots, or leaves all of
this alone. -/
inductive StepKind (c : Crypto) (s : StateDB) (op : StateOp) : Prop where
  | write {addr : Address} {acc : Account} (haddr : op.inPlace = some addr)
      (h : (s.step c op).Aside (s.mutate addr acc))
  | new {addr : Address} {acc : Account} (h : op = .setAccount addr acc)
  | back {id : Int} (h : op = .revertToSnapshot id)
  | stack (h : (s.step c op).SamePointers s) (hdb : (s.step c op).db = s.db)
      (hs : (s.step c op).snapshots = s.snapshots ++ [s.capture] ∨
        ∃ id : Int, op = .releaseSnapshot id ∧ id < s.snapshots.length ∧
          (s.step c op).snapshots = s.snapshots.take id.toNat)
  | keep (h : (s.step c op).Aside s)

theorem stepKind (c : Crypto) (s : StateDB) (op : StateOp) : StepKind c s op := by
  cases op with
  | setNonce addr _ | setBalance addr _ | incrementNonce addr =>
    cases h : s.loadAccount addr with
    | error e =>
      refine .keep ?_
      simp only [step, setNonce, setBalance, incrementNonce, h]
      exact ⟨⟨rfl, rfl, rfl⟩, rfl, rfl⟩
    | ok acc =>
      exact .write rfl (by simp only [step, setNonce, setBalance, incrementNonce, h]; exact .rfl)
  | setCode addr code =>
    cases h : ({ s with
        pendingCodeWrites := s.pendingCodeWrites.insert (c.keccak256 code) code
        keccaks := s.keccaks ++ [code] } : StateDB).loadAccount addr with
    | error e => exact .keep (by simp only [step, setCode, h]; exact ⟨⟨rfl, rfl, rfl⟩, rfl, rfl⟩)
    | ok acc =>
      have hs : (s.step c (.setCode addr code)).Aside
          (s.mutate addr { acc with codeHash := c.keccak256 code }) := by
        simp only [step, setCode, h]
        refine Aside.mutate ?_ addr _
        exact ⟨⟨rfl, rfl, rfl⟩, rfl, rfl⟩
      exact .write rfl hs
  | addBalance addr amount | addBalanceReturn addr amount =>
    by_cases ha : amount ≤ 0
    · exact .keep (by simp only [step, addBalance, addBalanceReturn, if_pos ha]; exact .rfl)
    · cases h : s.loadAccount addr with
      | error e =>
        exact .keep (by simp only [step, addBalance, addBalanceReturn, if_neg ha, h]; exact .rfl)
      | ok acc =>
        exact .write (if_pos (Int.not_le.mp ha))
          (by simp only [step, addBalance, addBalanceReturn, if_neg ha, h]; exact .rfl)
  | subBalance addr amount =>
    cases h : s.loadAccount addr with
    | error e => exact .keep (by simp only [step, subBalance, h]; exact .rfl)
    | ok acc =>
      by_cases ha : amount ≤ 0
      · exact .keep (by simp only [step, subBalance, h, if_pos ha]; exact .rfl)
      · by_cases hb : acc.balance - amount < 0
        · exact .keep (by simp only [step, subBalance, h, if_neg ha, if_pos hb]; exact .rfl)
        · exact .write (if_pos (Int.not_le.mp ha))
            (by simp only [step, subBalance, h, if_neg ha, if_neg hb]; exact .rfl)
  | setAccount addr acc => exact .new rfl
  | revertToSnapshot id => exact .back rfl
  | selfDestructToBeneficiary addr beneficiary =>
    refine .keep ?_
    simp only [step, selfDestructToBeneficiary]
    split <;> exact ⟨⟨rfl, rfl, rfl⟩, rfl, rfl⟩
  | getStorage addr key =>
    refine .keep ?_
    simp only [step, getStorageLocked]
    split
    · exact .rfl
    · split <;> exact ⟨⟨rfl, rfl, rfl⟩, rfl, rfl⟩
  | snapshot =>
    by_cases hd : maxSnapshotDepth ≤ s.snapshots.length
    · exact .keep (by simp only [step, snapshot, if_pos hd]; exact .rfl)
    · have hs : s.step c .snapshot = { s with snapshots := s.snapshots ++ [s.capture] } := by
        simp only [step, snapshot, if_neg hd]
      exact .stack (by rw [hs]; exact ⟨rfl, rfl, rfl⟩) (by rw [hs]) (.inl (by rw [hs]))
  | releaseSnapshot id =>
    by_cases hid : id < 0 ∨ (s.snapshots.length : Int) ≤ id
    · exact .keep (by simp only [step, releaseSnapshot, if_pos hid]; exact .rfl)
    · have hs : s.step c (.releaseSnapshot id)
          = { s with snapshots := s.snapshots.take id.toNat } := by
        simp only [step, releaseSnapshot, if_neg hid]
      exact .stack (by rw [hs]; exact ⟨rfl, rfl, rfl⟩) (by rw [hs])
        (.inr ⟨id, rfl, by omega, by rw [hs]⟩)
  | _ => exact .keep ⟨⟨rfl, rfl, rfl⟩, rfl, rfl⟩

theorem Tidy.step (h : s.Tidy) (c : Crypto) (op : StateOp) : (s.step c op).Tidy := by
  cases stepKind c s op with
  | write _ hs => exact (h.mutate _ _).of_same hs.toSamePointers
  | new hop => rw [hop]; exact h.setAccount _ _
  | back hop => rw [hop]; exact h.revertToSnapshot _
  | stack hs _ _ => exact h.of_same hs
  | keep hs => exact h.of_same hs.toSamePointers

/-! ## Commits keep pointers apart -/

/-- While a commit is staged, the pointers that wait for the cache count. -/
def Stage.Tidy (st : Stage) : Prop :=
  st.state.heap.Tidy fun addr r => st.state.Owns addr r ∨ (addr, r) ∈ st.pendingCache

theorem Stage.Tidy.state {st : Stage} (h : st.Tidy) : st.state.Tidy :=
  h.mono fun _ _ => .inl

theorem samePointers_recordModification (s : StateDB) (height : UInt64) (addr : Address) :
    (s.recordModification height addr).SamePointers s := by
  unfold recordModification
  split <;> exact ⟨rfl, rfl, rfl⟩

theorem samePointers_saveBeforeImages (s : StateDB) (height : UInt64) :
    (s.saveBeforeImages height).SamePointers s := by
  unfold saveBeforeImages
  split <;> exact ⟨rfl, rfl, rfl⟩

theorem Owns.of_same (h : s'.SamePointers s) : s'.Owns addr r ↔ s.Owns addr r := by
  unfold Owns
  rw [h.dirtyAccounts, h.accountCache]

/-- The state of a staging step is tidy, whether it fails or not. -/
def Keeps (dirty : Fmap Address Ref) : Except Failure Stage → Prop
  | .ok st => st.Tidy ∧ st.state.dirtyAccounts = dirty
  | .error e => e.2.Tidy

theorem stageAccount_tidy (c : Crypto) (height : UInt64) (h : st.Tidy) {e : Address × Ref}
    (he : st.state.dirtyAccounts[e.1]? = some e.2) :
    Keeps st.state.dirtyAccounts (stageAccount c height st e) := by
  unfold stageAccount
  dsimp only
  split
  · exact ⟨h, rfl⟩
  · next acc _ =>
    have hw := Heap.Tidy.write h e.2 (st.state.withStorageRoot c e.1 acc)
    split
    · exact hw.mono fun _ _ => .inl
    · have hs := samePointers_recordModification
        { st.state with
          heap := st.state.heap.write e.2 (st.state.withStorageRoot c e.1 acc)
          keccaks := st.state.keccaks ++ st.state.rootKeccaks e.1 } height e.1
      refine ⟨?_, hs.dirtyAccounts⟩
      unfold Stage.Tidy
      rw [hs.heap]
      refine hw.mono fun a r hown => ?_
      rcases hown with hown | hmem
      · exact .inl ((Owns.of_same hs).mp hown)
      · rcases List.mem_append.mp hmem with hmem | hmem
        · exact .inr hmem
        · obtain rfl := List.mem_singleton.mp hmem
          exact .inl (.inl he)

theorem stageStorage_tidy (c : Crypto) {st : Stage} (h : st.Tidy) (e : Address × Fmap Hash Hash) :
    Keeps st.state.dirtyAccounts (stageStorage c st e) := by
  unfold stageStorage
  dsimp only
  split
  · exact ⟨h, rfl⟩
  · split
    · exact ⟨h, rfl⟩
    · split
      · exact h.state.congr rfl rfl rfl
      · next acc _ _ _ _ =>
        refine ⟨?_, rfl⟩
        refine (Heap.Tidy.alloc h e.1
          { acc with storageRoot := computeStorageRoot c st.state.db e.1 e.2 }).mono ?_
        intro a r hown
        rcases hown with hown | hmem
        · exact .inl (.inl hown)
        · rcases List.mem_append.mp hmem with hmem | hmem
          · exact .inl (.inr hmem)
          · exact .inr (Prod.ext_iff.mp (List.mem_singleton.mp hmem))

theorem foldlM_keeps {α : Type} {f : Stage → α → Except Failure Stage} {l : List α} :
    ∀ {st : Stage}, st.Tidy →
      (∀ st' : Stage, st'.Tidy → st'.state.dirtyAccounts = st.state.dirtyAccounts →
        ∀ a ∈ l, Keeps st.state.dirtyAccounts (f st' a)) →
      Keeps st.state.dirtyAccounts (l.foldlM f st) := by
  induction l with
  | nil => exact fun h _ => ⟨h, rfl⟩
  | cons a l ih =>
    intro st h hstep
    have hone := hstep st h rfl a (List.mem_cons_self ..)
    rw [List.foldlM_cons]
    cases hf : f st a with
    | error e =>
      rw [hf] at hone
      exact hone
    | ok st' =>
      rw [hf] at hone
      obtain ⟨htidy, hdirty⟩ := hone
      have hrest := ih htidy fun st'' h'' hd'' b hb => by
        rw [hdirty]
        exact hstep st'' h'' (hd''.trans hdirty) b (List.mem_cons_of_mem _ hb)
      rwa [hdirty] at hrest

theorem stage_tidy (c : Crypto) (ch : CommitChoice) (h : s.Tidy)
    (height : UInt64) : Keeps s.dirtyAccounts (stage c ch s height) := by
  have hs := samePointers_saveBeforeImages s height
  have h0 : (Stage.start (s.saveBeforeImages height)).Tidy :=
    (h.of_same hs).mono fun _ _ hown => hown.resolve_right List.not_mem_nil
  have hacc := foldlM_keeps (f := stageAccount c height) h0
    (l := (s.saveBeforeImages height).dirtyAccounts.range ch.accounts) fun st' h' hd e he => by
      have hkeep := stageAccount_tidy c height h' (e := e) (by rw [hd]; exact Fmap.mem_range.mp he)
      rwa [hd] at hkeep
  unfold stage
  dsimp only
  rw [← hs.dirtyAccounts]
  cases hf : ((s.saveBeforeImages height).dirtyAccounts.range ch.accounts).foldlM
      (stageAccount c height) (Stage.start (s.saveBeforeImages height)) with
  | error e =>
    rw [hf] at hacc
    exact hacc
  | ok st =>
    rw [hf] at hacc
    obtain ⟨htidy, hdirty⟩ := hacc
    have hcode : (stageCode st).Tidy := htidy
    have hsto := foldlM_keeps (f := stageStorage c) hcode
      (l := (s.saveBeforeImages height).dirtyStorage.range ch.storage) fun st' h' hd e _ => by
        have hkeep := stageStorage_tidy c h' e
        rwa [hd] at hkeep
    rwa [show (stageCode st).state.dirtyAccounts = st.state.dirtyAccounts from rfl, hdirty]
      at hsto

theorem mem_of_erased {l : List Address} {m : Fmap Address Ref} {a : Address}
    (h : (l.foldl (fun m addr => m.erase addr) m)[a]? = some r) : m[a]? = some r := by
  induction l generalizing m with
  | nil => exact h
  | cons k l ih =>
    have hk := ih h
    rw [Fmap.getElem?_erase] at hk
    split at hk
    · cases hk
    · exact hk

/-- The cache after a commit has staged entries, and old ones of addresses
that were not staged. -/
theorem accountCache_addAllToCache {ch : CommitChoice} {pending : List (Address × Ref)} :
    ∀ {s : StateDB} {n : Nat} {a : Address} {r : Ref},
      ((pending.zipIdx n).foldl (fun s e => addToCacheLocked (ch.evict e.2) s e.1) s).accountCache[a]?
        = some r → (a ∉ pending.map Prod.fst ∧ s.accountCache[a]? = some r) ∨ (a, r) ∈ pending := by
  induction pending with
  | nil => exact fun h => .inl ⟨List.not_mem_nil, h⟩
  | cons e pending ih =>
    intro s n a r h
    rcases ih h with ⟨hnot, h⟩ | h
    · simp only [addToCacheLocked] at h
      by_cases ha : e.1 = a
      · subst ha
        rw [Fmap.getElem?_insert_self] at h
        exact .inr (by simp [← Option.some.inj h])
      · rw [Fmap.getElem?_insert_ne _ _ ha] at h
        have hnot' : a ∉ (e :: pending).map Prod.fst := by
          rw [List.map_cons, List.mem_cons, not_or]
          exact ⟨fun h => ha h.symm, hnot⟩
        split at h
        · exact .inl ⟨hnot', mem_of_erased h⟩
        · exact .inl ⟨hnot', h⟩
    · exact .inr (List.mem_cons_of_mem _ h)

theorem updateTree_pointers (c : Crypto) (s : StateDB) (height : UInt64)
    (updates : List (Bytes × Bytes)) : (updateTree c s height updates).heap = s.heap ∧
      (updateTree c s height updates).accountCache = s.accountCache ∧
      ((updateTree c s height updates).dirtyAccounts = ∅ ∨
        (updateTree c s height updates).dirtyAccounts = s.dirtyAccounts) := by
  unfold updateTree
  dsimp only
  split
  · exact ⟨rfl, rfl, .inl rfl⟩
  · exact ⟨rfl, rfl, .inr rfl⟩

theorem addAllToCache_rest (ch : CommitChoice) (pending : List (Address × Ref)) :
    ∀ (s : StateDB), (addAllToCache ch s pending).heap = s.heap ∧
      (addAllToCache ch s pending).dirtyAccounts = s.dirtyAccounts := by
  unfold addAllToCache
  generalize 0 = n
  induction pending generalizing n with
  | nil => exact fun s => ⟨rfl, rfl⟩
  | cons e pending ih =>
    intro s
    rw [List.zipIdx_cons, List.foldl_cons]
    exact ih (n + 1) (addToCacheLocked (ch.evict n) s e)

theorem publish_tidy (c : Crypto) (ch : CommitChoice) (height : UInt64) (h : st.Tidy) :
    (publish c ch height st).Tidy := by
  unfold publish
  dsimp only
  generalize hs : ({ st.state with db := st.state.db.write st.ops } : StateDB) = s
  have hrest := addAllToCache_rest ch st.pendingCache s
  obtain ⟨hheap, hcache, hdirty⟩ := updateTree_pointers c (addAllToCache ch s st.pendingCache)
    height st.verkleUpdates
  have hown : ∀ a r, (updateTree c (addAllToCache ch s st.pendingCache) height
      st.verkleUpdates).Owns a r → st.state.Owns a r ∨ (a, r) ∈ st.pendingCache := by
    rintro a r (hd | hc)
    · rcases hdirty with hd' | hd'
      · rw [hd'] at hd
        simp at hd
      · rw [hd', hrest.2, ← hs] at hd
        exact .inl (.inl hd)
    · rw [hcache] at hc
      rcases accountCache_addAllToCache hc with ⟨-, hc⟩ | hc
      · rw [← hs] at hc
        exact .inl (.inr hc)
      · exact .inr hc
  have htidy : (updateTree c (addAllToCache ch s st.pendingCache) height
      st.verkleUpdates).Tidy := by
    have hs' : s.heap = st.state.heap := by rw [← hs]
    unfold Tidy
    rw [hheap, hrest.1, hs']
    exact h.mono hown
  exact htidy.congr rfl rfl rfl

theorem Tidy.commit (c : Crypto) (ch : CommitChoice) (h : s.Tidy)
    (height : UInt64) : (s.commit c ch height).1.Tidy := by
  have hstage := stage_tidy c ch h height
  unfold StateDB.commit
  split
  · exact h.congr rfl rfl rfl
  · split
    · next he =>
      rw [he] at hstage
      exact hstage
    · next hok =>
      rw [hok] at hstage
      exact publish_tidy c ch height hstage.1

theorem samePointers_recover (c : Crypto) (s : StateDB) :
    (s.recoverConsistency c).1.SamePointers s := by
  have hheight : s.restoreHeight.SamePointers s := by
    unfold restoreHeight
    split <;> exact ⟨rfl, rfl, rfl⟩
  unfold recoverConsistency
  dsimp only
  split
  · exact hheight
  · split
    · exact hheight
    · split
      · exact hheight
      · split
        · split <;> exact ⟨hheight.heap, hheight.dirtyAccounts, hheight.accountCache⟩
        · exact ⟨hheight.heap, hheight.dirtyAccounts, hheight.accountCache⟩

theorem tidy_openDB {d : Db} {hashed keccaks : List Bytes}
    (h : openDB c d hashed keccaks = .ok s) : s.Tidy := by
  have halloc : (alloc c d hashed keccaks).Tidy := by
    refine ⟨fun hown => ?_, fun hown => ?_⟩ <;> rcases hown with h | h <;> simp [alloc] at h
  have hs := samePointers_recover c (alloc c d hashed keccaks)
  unfold openDB at h
  split at h
  · next heq =>
    rw [heq] at hs
    exact Except.ok.inj h ▸ halloc.of_same hs
  · cases h

theorem reachable_tidy (h : Reachable c s) : s.Tidy := by
  induction h with
  | «open» h => exact tidy_openDB h
  | step _ op ih => exact ih.step c op
  | commit _ ch height ih => exact ih.commit c ch height
  | revert _ ih => exact ih.revert
  | clearTxState _ ih => exact ih.congr rfl rfl rfl

/-! ## What a run after a snapshot leaves alone -/

/-- `s` has come from `s₀` by calls after a `Snapshot`. Where `s₀` had no dirty
account, the cached account still has the value it had, and the dirty map
does not lead to it. -/
structure Since (s₀ s : StateDB) : Prop where
  db : s.db = s₀.db
  accountCache : s.accountCache = s₀.accountCache
  stack : s₀.snapshots ++ [s₀.capture] <+: s.snapshots
  kept : ∀ addr : Address, s₀.dirtyAccounts[addr]? = none →
    s.heap.lookup s.accountCache addr = s₀.heap.lookup s₀.accountCache addr
  apart : ∀ (addr : Address) (r : Ref), s₀.dirtyAccounts[addr]? = none → s.dirtyAccounts[addr]? = some r →
    s.accountCache[addr]? ≠ some r
  tidy : s.Tidy

end StateDB

/-- The call does not write to an object that is only in the cache. -/
def StateOp.Detached (s : StateDB) (op : StateOp) : Prop :=
  match op.inPlace with
  | some addr => s.dirtyAccounts[addr]? ≠ none ∨ s.accountCache[addr]? = none
  | none => True

instance (s : StateDB) (op : StateOp) : Decidable (op.Detached s) := by
  unfold StateOp.Detached
  split <;> infer_instance

/-- The call leaves the snapshot `id` and those below it on the stack. -/
def StateOp.Inner (id : Int) : StateOp → Prop
  | .revertToSnapshot i | .releaseSnapshot i => id < i
  | _ => True

instance (id : Int) (op : StateOp) : Decidable (op.Inner id) := by
  unfold StateOp.Inner
  split <;> infer_instance

namespace StateDB

theorem mutate_frame (s : StateDB) (addr : Address) (acc : Account) :
    (s.mutate addr acc).db = s.db ∧ (s.mutate addr acc).accountCache = s.accountCache ∧
      (s.mutate addr acc).snapshots = s.snapshots := by
  unfold mutate
  split <;> exact ⟨rfl, rfl, rfl⟩

theorem step_frame (c : Crypto) (s : StateDB) (op : StateOp) :
    (s.step c op).db = s.db ∧ (s.step c op).accountCache = s.accountCache ∧
      ((s.step c op).snapshots = s.snapshots ∨ (s.step c op).snapshots = s.snapshots ++ [s.capture] ∨
        ∃ id : Int, (op = .revertToSnapshot id ∨ op = .releaseSnapshot id) ∧ id < s.snapshots.length ∧
          (s.step c op).snapshots = s.snapshots.take id.toNat) := by
  cases stepKind c s op with
  | @write addr acc _ hs =>
    obtain ⟨hdb, hcache, hsnaps⟩ := mutate_frame s addr acc
    exact ⟨hs.db.trans hdb, hs.accountCache.trans hcache, .inl (hs.snapshots.trans hsnaps)⟩
  | new hop => rw [hop]; exact ⟨rfl, rfl, .inl rfl⟩
  | @back id hop =>
    rw [hop]
    simp only [step, revertToSnapshot]
    split
    · next snap h =>
      have hlt : id.toNat < s.snapshots.length := (List.getElem?_eq_some_iff.mp h).1
      exact ⟨rfl, rfl, .inr (.inr ⟨id, .inl rfl, by omega, rfl⟩)⟩
    · exact ⟨rfl, rfl, .inl rfl⟩
  | stack h hdb hs =>
    refine ⟨hdb, h.accountCache, .inr ?_⟩
    rcases hs with hs | ⟨id, hop, hlt, hs⟩
    · exact .inl hs
    · exact .inr ⟨id, .inr hop, hlt, hs⟩
  | keep h => exact ⟨h.db, h.accountCache, .inl h.snapshots⟩

/-- Calls on inner snapshots leave the outer ones on the stack. -/
theorem step_stack (c : Crypto) {l : List StateSnapshot} {id : Nat} (hl : l.length = id + 1)
    (h : l <+: s.snapshots) (hop : op.Inner id) : l <+: (s.step c op).snapshots := by
  obtain ⟨-, -, heq | heq | ⟨i, hi, -, heq⟩⟩ := step_frame c s op
  · rwa [heq]
  · rw [heq]
    exact h.trans (List.prefix_append ..)
  · rw [heq]
    have hlt : (id : Int) < i := by
      rcases hi with rfl | rfl <;> exact hop
    exact List.prefix_take_iff.mpr ⟨h, by omega⟩

theorem Since.snapshot (h : s.Tidy) {id : Int} (hid : s.snapshot.1 = id)
    (hpos : 0 ≤ id) : Since s s.snapshot.2 ∧ id = s.snapshots.length := by
  unfold StateDB.snapshot at hid ⊢
  split at hid
  · simp only at hid
    omega
  · next hdepth =>
    rw [if_neg hdepth]
    refine ⟨⟨rfl, rfl, List.prefix_rfl, fun _ _ => rfl, fun addr r hnone hsome => ?_,
      h.congr rfl rfl rfl⟩, hid.symm⟩
    rw [hnone] at hsome
    cases hsome

/-- What `Since` says of the objects, for a step that keeps the cache. -/
structure Spared (s₀ s s' : StateDB) : Prop where
  kept : ∀ addr : Address, s₀.dirtyAccounts[addr]? = none →
    s'.heap.lookup s'.accountCache addr = s.heap.lookup s.accountCache addr
  apart : ∀ (addr : Address) (r : Ref), s₀.dirtyAccounts[addr]? = none →
    s'.dirtyAccounts[addr]? = some r → s'.accountCache[addr]? ≠ some r

theorem Spared.of_same {s'' : StateDB} (h : Spared s₀ s s')
    (hs : s''.SamePointers s') : Spared s₀ s s'' := by
  constructor
  · rw [hs.heap, hs.accountCache]
    exact h.kept
  · rw [hs.dirtyAccounts, hs.accountCache]
    exact h.apart

theorem Since.cache_valid (h : Since s₀ s)
    (hr : s.accountCache[addr]? = some r) : r < s.heap.cells.length :=
  h.tidy.valid (.inr hr)

theorem Since.spared_setAccount (h : Since s₀ s) (addr : Address)
    (acc : Account) : Spared s₀ s (s.setAccount addr acc) := by
  constructor
  · intro a _
    exact lookup_alloc (fun r hr => h.cache_valid hr) acc
  · intro a r hnone hd hc
    by_cases ha : addr = a
    · subst ha
      rw [setAccount, Fmap.getElem?_insert_self] at hd
      have hlt := h.cache_valid hc
      rw [← Option.some.inj hd] at hlt
      exact absurd hlt (Nat.lt_irrefl _)
    · rw [setAccount, Fmap.getElem?_insert_ne _ _ ha] at hd
      exact h.apart a r hnone hd hc

theorem Since.spared_mutate (h : Since s₀ s)
    (hop : s.dirtyAccounts[addr]? ≠ none ∨ s.accountCache[addr]? = none) (acc : Account) :
    Spared s₀ s (s.mutate addr acc) := by
  cases hd : s.dirtyAccounts[addr]? with
  | some r =>
    have hp : s.pointer addr = some r := by rw [pointer, hd, Option.some_or]
    have hm : s.mutate addr acc = { s with
        heap := s.heap.write r acc, dirtyAccounts := s.dirtyAccounts.insert addr r } := by
      simp only [mutate, hp]
    rw [hm]
    constructor
    · intro a hnone
      refine lookup_write_ne (fun hc => ?_) acc
      -- the cache leads to `r` for `addr` alone, and not where `s₀` had nothing dirty
      obtain rfl : a = addr := h.tidy.apart (.inr hc) (.inl hd)
      exact h.apart a r hnone hd hc
    · intro a r' hnone hd' hc
      by_cases ha : addr = a
      · subst ha
        rw [Fmap.getElem?_insert_self, ← hd] at hd'
        exact h.apart addr r' hnone hd' hc
      · rw [Fmap.getElem?_insert_ne _ _ ha] at hd'
        exact h.apart a r' hnone hd' hc
  | none =>
    have hp : s.pointer addr = none := by
      rw [pointer, hd, Option.none_or]
      exact hop.resolve_left fun hne => hne hd
    have hm : s.mutate addr acc = s.setAccount addr acc := by
      simp only [mutate, setAccount, hp]
    rw [hm]
    exact h.spared_setAccount addr acc

theorem Since.spared_restore (h : Since s₀ s) (snap : StateSnapshot) :
    Spared s₀ s (s.restore snap) := by
  constructor
  · intro a _
    show lookup _ s.accountCache a = _
    cases hc : s.accountCache[a]? with
    | none => rw [lookup_eq_none hc, lookup_eq_none hc]
    | some r =>
      rw [lookup_eq_read hc, lookup_eq_read hc]
      exact read_allocAll (h.cache_valid hc) _
  · intro a r _ hd hc
    obtain ⟨i, acc, -, rfl⟩ := getElem?_allocAll.mp hd
    exact absurd (h.cache_valid hc) (Nat.not_lt.mpr (Nat.le_add_right _ _))

theorem Since.spared_step (c : Crypto) (h : Since s₀ s) (hop : op.Detached s) :
    Spared s₀ s (s.step c op) := by
  cases stepKind c s op with
  | write haddr hs =>
    rw [StateOp.Detached, haddr] at hop
    exact (h.spared_mutate hop _).of_same hs.toSamePointers
  | new heq =>
    rw [heq]
    exact h.spared_setAccount _ _
  | back heq =>
    rw [heq]
    simp only [step, revertToSnapshot]
    split
    · exact (h.spared_restore _).of_same ⟨rfl, rfl, rfl⟩
    · exact ⟨fun _ _ => rfl, h.apart⟩
  | stack hs _ _ => exact Spared.of_same ⟨fun _ _ => rfl, h.apart⟩ hs
  | keep hs => exact Spared.of_same ⟨fun _ _ => rfl, h.apart⟩ hs.toSamePointers

theorem Since.step (c : Crypto) (h : Since s₀ s) (hop : op.Detached s)
    (hinner : op.Inner s₀.snapshots.length) : Since s₀ (s.step c op) := by
  have hframe := step_frame c s op
  have hspared := h.spared_step c hop
  exact
    { db := hframe.1.trans h.db
      accountCache := hframe.2.1.trans h.accountCache
      stack := step_stack c (by simp) h.stack hinner
      kept := fun addr hnone => (hspared.kept addr hnone).trans (h.kept addr hnone)
      apart := hspared.apart
      tidy := h.tidy.step c op }

theorem Since.exec (c : Crypto) {ops : List StateOp} :
    ∀ {s : StateDB}, Since s₀ s → (∀ op ∈ ops, op.Inner s₀.snapshots.length) →
      (∀ pre op suf, ops = pre ++ op :: suf → (s.exec c pre).step c op ≠ s.exec c pre →
        op.Detached (s.exec c pre)) → Since s₀ (s.exec c ops) := by
  induction ops with
  | nil => exact fun h _ _ => h
  | cons op ops ih =>
    intro s h hinner hdet
    have hsince : Since s₀ (s.step c op) := by
      by_cases hsame : s.step c op = s
      · rwa [hsame]
      · exact h.step c (hdet [] op ops rfl hsame) (hinner op (List.mem_cons_self ..))
    refine ih hsince (fun o ho => hinner o (List.mem_cons_of_mem _ ho)) fun pre o suf heq => ?_
    exact hdet (op :: pre) o suf (by rw [heq, List.cons_append])

/-! ## The theorem -/

/-- All reads give the same. -/
structure SameReads (s' s : StateDB) : Prop where
  account : ∀ addr, s'.getAccount addr = s.getAccount addr
  balance : ∀ addr, s'.getBalance addr = s.getBalance addr
  nonce : ∀ addr, s'.getNonce addr = s.getNonce addr
  code : ∀ addr, s'.getCode addr = s.getCode addr
  storage : ∀ addr key, s'.getStorage addr key = s.getStorage addr key
  transient : ∀ addr key, s'.getTransientState addr key = s.getTransientState addr key
  logs : s'.getLogs = s.getLogs
  addressWarm : ∀ addr, s'.addressInAccessList addr = s.addressInAccessList addr
  slotWarm : ∀ addr slot, s'.slotInAccessList addr slot = s.slotInAccessList addr slot
  selfDestructed : ∀ addr, s'.hasSelfDestructed addr = s.hasSelfDestructed addr

theorem Since.getAccount_restore (h₀ : s₀.Tidy) (h : Since s₀ s)
    (addr : Address) : (s.restore s₀.capture).getAccount addr = s₀.getAccount addr := by
  have hdirty : (s.restore s₀.capture).heap.lookup (s.restore s₀.capture).dirtyAccounts addr
      = s₀.heap.lookup s₀.dirtyAccounts addr := by
    refine (lookup_allocAll s.heap s₀.capture.dirtyAccounts addr).trans ?_
    exact getElem?_values ..
  rw [getAccount, getAccount, (h.tidy.restore _).getAccountLocked, h₀.getAccountLocked, hdirty]
  cases hd : s₀.dirtyAccounts[addr]? with
  | some r =>
    obtain ⟨acc, hacc⟩ := lookup_isSome hd (h₀.valid (.inl hd))
    simp only [hacc, Option.some_or]
  | none =>
    rw [(h.spared_restore s₀.capture).kept addr hd, h.kept addr hd]
    rw [show (s.restore s₀.capture).db = s₀.db from h.db]

theorem Since.sameReads (h₀ : s₀.Tidy) (h : Since s₀ s) :
    (s.revertToSnapshot s₀.snapshots.length).SameReads s₀ := by
  have htop : s.snapshots[s₀.snapshots.length]? = some s₀.capture := by
    obtain ⟨l, hl⟩ := h.stack
    rw [← hl]
    simp
  have hrev : s.revertToSnapshot s₀.snapshots.length = { s.restore s₀.capture with
      snapshots := s.snapshots.take s₀.snapshots.length } := by
    simp only [revertToSnapshot, Int.toNat_natCast, htop]
  have hacc : ∀ addr, (s.revertToSnapshot s₀.snapshots.length).getAccount addr
      = s₀.getAccount addr := by
    rw [hrev]
    exact h.getAccount_restore h₀
  obtain ⟨hdb, hdirty, hcache, hcode, htx⟩ :
      (s.revertToSnapshot s₀.snapshots.length).db = s₀.db ∧
        (s.revertToSnapshot s₀.snapshots.length).dirtyStorage = s₀.dirtyStorage ∧
        (s.revertToSnapshot s₀.snapshots.length).storageCache = s₀.storageCache ∧
        (s.revertToSnapshot s₀.snapshots.length).pendingCodeWrites = s₀.pendingCodeWrites ∧
        (s.revertToSnapshot s₀.snapshots.length).tx = s₀.tx := by
    rw [hrev]
    exact ⟨h.db, rfl, rfl, rfl, rfl⟩
  generalize s.revertToSnapshot s₀.snapshots.length = t at hacc hdb hdirty hcache hcode htx
  exact
    { account := hacc
      balance := fun addr => by rw [getBalance, getBalance, hacc]
      nonce := fun addr => by rw [getNonce, getNonce, hacc]
      code := fun addr => by simp only [getCode, getCodeByHash, hacc, hcode, hdb]
      storage := fun addr key => by simp only [getStorage_eq, hdirty, hcache, hdb]
      transient := fun addr key => by rw [getTransientState, getTransientState, htx]
      logs := by rw [getLogs, getLogs, htx]
      addressWarm := fun addr => by rw [addressInAccessList, addressInAccessList, htx]
      slotWarm := fun addr slot => by rw [slotInAccessList, slotInAccessList, htx]
      selfDestructed := fun addr => by rw [hasSelfDestructed, hasSelfDestructed, htx] }

/-- A revert is exact if no call since the snapshot that changed the state has
written to an account that was only in the cache. -/
theorem revert_exact {c : Crypto} {s : StateDB} (h : Reachable c s) {id : Int}
    (hid : s.snapshot.1 = id) (hpos : 0 ≤ id) {ops : List StateOp}
    (hinner : ∀ op ∈ ops, op.Inner id)
    (hdet : ∀ pre op suf, ops = pre ++ op :: suf →
      (s.snapshot.2.exec c pre).step c op ≠ s.snapshot.2.exec c pre →
        op.Detached (s.snapshot.2.exec c pre)) :
    ((s.snapshot.2.exec c ops).revertToSnapshot id).SameReads s := by
  have htidy := reachable_tidy h
  obtain ⟨hsince, rfl⟩ := Since.snapshot htidy hid hpos
  exact (hsince.exec c hinner hdet).sameReads htidy

end StateDB

/-! ## Fixed runs -/

def CommitChoice.sorted : CommitChoice := ⟨.sorted _, .sorted _, fun _ => .sorted _⟩

def addressOne : Address := copyInto 20 (List.replicate 19 0 ++ [1])

/-- The hashes for a state with the one account `addressOne`, of balance 5:
the digest of its stem, and that of its leaf. No code and no storage. -/
def fiveCrypto : Crypto where
  sha3 := tableSha3
    [(stemMessage addressOne.toList,
      0xee70fb3b44f211add461c24b7dcbabdc00b6a36fcfc012b6fc3cd7c66e5af58f)]
    0x6377edd4001ff9f1385f6423919fa161374491b82a6b8ef31e0860a2442b1944
  keccak256 _ := zeroHash

namespace StateDB

/-- A new instance over an empty database. -/
def fresh (c : Crypto) : StateDB := alloc c (Db.on .mem ∅) [] []

theorem reachable_fresh (c : Crypto) : Reachable c (fresh c) :=
  .open (d := Db.on .mem ∅) rfl

/-- The balance is set before a nested snapshot and in it, and the nested one
reverted. -/
def nestedOps : List StateOp :=
  [.setBalance addressOne 5, .snapshot, .setBalance addressOne 9, .revertToSnapshot 1]

theorem revert_exact_nested :
    (((fresh fiveCrypto).snapshot.2.exec fiveCrypto nestedOps).revertToSnapshot 0).SameReads
      (fresh fiveCrypto) := by
  have hdet : ∀ i : Fin nestedOps.length, (nestedOps.get i).Detached
      ((fresh fiveCrypto).snapshot.2.exec fiveCrypto (nestedOps.take i)) := by decide +kernel
  exact revert_exact (reachable_fresh fiveCrypto) (by decide +kernel) (by decide) (by decide)
    fun pre op suf heq _ => forall_split (p := fun pre op => StateOp.Detached
      ((fresh fiveCrypto).snapshot.2.exec fiveCrypto pre) op) hdet pre op suf heq

/-- A setter on a committed account writes to the cached object, which a
revert does not put back. -/
theorem revert_exact_cached :
    ¬ ∀ (c : Crypto) (s : StateDB) (id : Int) (ops : List StateOp), Reachable c s →
      s.snapshot.1 = id → 0 ≤ id → (∀ op ∈ ops, op.Inner id) →
      ((s.snapshot.2.exec c ops).revertToSnapshot id).SameReads s := by
  intro h
  have hreads := h fiveCrypto
    (((fresh fiveCrypto).step fiveCrypto (.setBalance addressOne 5)).commit fiveCrypto .sorted 1).1
    0 [.setBalance addressOne 9] (((reachable_fresh _).step _).commit _ _) (by decide +kernel)
    (by decide) (by decide)
  have hbalance := hreads.balance addressOne
  revert hbalance
  decide +kernel

end StateDB

end Qau
