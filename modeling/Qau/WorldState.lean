import Qau.StoreProgram
import Qau.StateDB

/-!
# The state interface of the executors

Both transaction executors reach the state through an interface of getters,
setters and snapshots. Here it is a `StoreProgram` over five kinds of key:
a balance, a nonce, a storage slot and the code of an address, and the state
that belongs to the running transaction. A plain state under it is a `World`.

Every write of a balance in the executors adds an amount to what was just
read, so the results below speak of `credit`, which moves the total by
exactly that amount and adds up pointwise whether or not addresses
coincide.
-/

namespace Qau

/-- What a state holds. -/
inductive StateKey where
  | balance (addr : Address)
  | nonce (addr : Address)
  | storage (addr : Address) (key : Hash)
  | code (addr : Address)
  | tx
  deriving DecidableEq

/-- The type of the value under a key. -/
abbrev StateKey.Val : StateKey → Type
  | .balance _ => Int
  | .nonce _ => UInt64
  | .storage _ _ => Hash
  | .code _ => Bytes
  | .tx => TxState

/-- Code over the `StateDB` interface. -/
abbrev StateProgram := StoreProgram StateKey.Val

namespace StateProgram

def getBalance (addr : Address) : StateProgram Int := .read (.balance addr) .pure

def setBalance (addr : Address) (v : Int) : StateProgram Unit := .write (.balance addr) v (.pure ())

def getNonce (addr : Address) : StateProgram UInt64 := .read (.nonce addr) .pure

def setNonce (addr : Address) (n : UInt64) : StateProgram Unit := .write (.nonce addr) n (.pure ())

/-- The nonce is a `uint64`: the last one is followed by 0. -/
def incrementNonce (addr : Address) : StateProgram Unit := do
  let n ← getNonce addr
  setNonce addr (n + 1)

def getCode (addr : Address) : StateProgram Bytes := .read (.code addr) .pure

/-- `ClearTxState`, which the state of the node has. -/
def clearTxState : StateProgram Unit := .write .tx emptyTxState (.pure ())

def takeSnapshot : StateProgram Nat := .snapshot .pure

def revertToSnapshot (id : Nat) : StateProgram Unit := .revert id (.pure ())

def releaseSnapshot (id : Nat) : StateProgram Unit := .release id (.pure ())

/-- The type assertion `state.(*mvStateWrapper)`. -/
def isTracked : StateProgram Bool := .tracked .pure

/-- `DeleteVersion` of the running transaction's own writes. -/
def deleteVersion : StateProgram Unit := .discard (.pure ())

end StateProgram

/-- A plain state with its snapshots. -/
abbrev World := Journaled StateKey.Val

namespace World

def balance (s : World) (a : Address) : Int := s.store (.balance a)

def nonce (s : World) (a : Address) : UInt64 := s.store (.nonce a)

def slot (s : World) (a : Address) (k : Hash) : Hash := s.store (.storage a k)

def code (s : World) (a : Address) : Bytes := s.store (.code a)

/-- The access list, the logs, the self-destructs and the transient storage. -/
def txState (s : World) : TxState := s.store .tx

def clearTxState (s : World) : World :=
  { s with store := Function.update s.store .tx emptyTxState }

/-- The sum of all account balances; a stake is a balance of the staking
contract. -/
def total (s : World) : Int := ∑ a : Address, s.balance a

/-- Add `d` to the balance of `a`. -/
def credit (s : World) (a : Address) (d : Int) : World :=
  { s with store := Function.update s.store (.balance a) (s.balance a + d) }

/-- Give `a` its next nonce. -/
def bumpNonce (s : World) (a : Address) : World :=
  { s with store := Function.update s.store (.nonce a) (s.nonce a + 1) }

/-- Move `v` from one address to another. -/
def move (s : World) (src dst : Address) (v : Int) : World :=
  (s.credit src (-v)).credit dst v

/-- The same values under another stack of snapshots. -/
def withFrames (s : World) (fs : List ((k : StateKey) → k.Val)) : World := { s with frames := fs }

section Fields

variable (s : World) (a b : Address) (d v : Int) (k : Hash)

@[simp] theorem balance_credit :
    (s.credit a d).balance b = s.balance b + if b = a then d else 0 := by
  by_cases h : b = a
  · subst h; simp [credit, balance]
  · simp [credit, balance, h]

@[simp] theorem nonce_credit : (s.credit a d).nonce b = s.nonce b := by simp [credit, nonce]

@[simp] theorem slot_credit : (s.credit a d).slot b k = s.slot b k := by simp [credit, slot]

@[simp] theorem code_credit : (s.credit a d).code b = s.code b := by simp [credit, code]

@[simp] theorem frames_credit : (s.credit a d).frames = s.frames := rfl

@[simp] theorem balance_bumpNonce : (s.bumpNonce a).balance b = s.balance b := by
  simp [bumpNonce, balance]

@[simp] theorem nonce_bumpNonce :
    (s.bumpNonce a).nonce b = if b = a then s.nonce a + 1 else s.nonce b := by
  by_cases h : b = a
  · subst h; simp [bumpNonce, nonce]
  · simp [bumpNonce, nonce, h]

@[simp] theorem slot_bumpNonce : (s.bumpNonce a).slot b k = s.slot b k := by
  simp [bumpNonce, slot]

@[simp] theorem code_bumpNonce : (s.bumpNonce a).code b = s.code b := by simp [bumpNonce, code]

@[simp] theorem frames_bumpNonce : (s.bumpNonce a).frames = s.frames := rfl

@[simp] theorem credit_zero : s.credit a 0 = s := by simp [credit, balance]

@[simp] theorem total_bumpNonce : (s.bumpNonce a).total = s.total := by simp [total]

@[simp] theorem total_credit : (s.credit a d).total = s.total + d := by
  simp [total, Finset.sum_add_distrib]

@[simp] theorem total_move : (s.move a b v).total = s.total := by simp [move]

@[simp] theorem move_zero : s.move a b 0 = s := by simp [move]

@[simp] theorem balance_clearTxState : s.clearTxState.balance a = s.balance a := by
  simp [clearTxState, balance]

@[simp] theorem nonce_clearTxState : s.clearTxState.nonce a = s.nonce a := by
  simp [clearTxState, nonce]

@[simp] theorem slot_clearTxState : s.clearTxState.slot a k = s.slot a k := by
  simp [clearTxState, slot]

@[simp] theorem code_clearTxState : s.clearTxState.code a = s.code a := by
  simp [clearTxState, code]

@[simp] theorem txState_clearTxState : s.clearTxState.txState = emptyTxState := by
  simp [clearTxState, txState]

@[simp] theorem total_clearTxState : s.clearTxState.total = s.total := by simp [total]

theorem clearTxState_of_eq (h : s.txState = emptyTxState) : s.clearTxState = s := by
  rw [clearTxState, ← h, txState, Function.update_eq_self]

@[simp] theorem credit_clearTxState :
    s.clearTxState.credit a d = (s.credit a d).clearTxState := by
  rw [credit, balance_clearTxState, clearTxState, Function.update_comm (by simp)]
  rfl

@[simp] theorem bumpNonce_clearTxState :
    s.clearTxState.bumpNonce a = (s.bumpNonce a).clearTxState := by
  rw [bumpNonce, nonce_clearTxState, clearTxState, Function.update_comm (by simp)]
  rfl

variable (fs gs : List ((k : StateKey) → k.Val))

@[simp] theorem balance_withFrames : (s.withFrames fs).balance a = s.balance a := rfl

@[simp] theorem nonce_withFrames : (s.withFrames fs).nonce a = s.nonce a := rfl

@[simp] theorem code_withFrames : (s.withFrames fs).code a = s.code a := rfl

@[simp] theorem frames_withFrames : (s.withFrames fs).frames = fs := rfl

@[simp] theorem credit_withFrames :
    (s.withFrames fs).credit a d = (s.credit a d).withFrames fs := rfl

@[simp] theorem move_withFrames : (s.withFrames fs).move a b v = (s.move a b v).withFrames fs := rfl

@[simp] theorem withFrames_withFrames : (s.withFrames fs).withFrames gs = s.withFrames gs := rfl

@[simp] theorem withFrames_of_eq (h : s.frames = fs) : s.withFrames fs = s := by subst h; rfl

end Fields

end World

namespace StateProgram

section Run

variable (s : World) (a : Address)

@[simp] theorem run_getBalance : (getBalance a).run s = (s.balance a, s) := rfl

theorem run_setBalance (v : Int) : (setBalance a v).run s = ((), s.credit a (v - s.balance a)) := by
  simp [setBalance, StoreProgram.run, World.credit]

@[simp] theorem run_setBalance_add (d : Int) :
    (setBalance a (s.balance a + d)).run s = ((), s.credit a d) := by
  simp [run_setBalance]

@[simp] theorem run_setBalance_sub (d : Int) :
    (setBalance a (s.balance a - d)).run s = ((), s.credit a (-d)) := by
  simp [run_setBalance]

@[simp] theorem run_getNonce : (getNonce a).run s = (s.nonce a, s) := rfl

@[simp] theorem run_setNonce_succ : (setNonce a (s.nonce a + 1)).run s = ((), s.bumpNonce a) := rfl

@[simp] theorem run_incrementNonce : (incrementNonce a).run s = ((), s.bumpNonce a) := rfl

@[simp] theorem run_getCode : (getCode a).run s = (s.code a, s) := rfl

@[simp] theorem run_clearTxState : clearTxState.run s = ((), s.clearTxState) := rfl

@[simp] theorem run_takeSnapshot :
    takeSnapshot.run s = (s.frames.length, s.withFrames (s.frames ++ [s.store])) := rfl

@[simp] theorem run_revertToSnapshot (id : Nat) :
    (revertToSnapshot id).run s = ((), StoreProgram.restore s id) := rfl

@[simp] theorem run_releaseSnapshot (id : Nat) :
    (releaseSnapshot id).run s = ((), s.withFrames (s.frames.take id)) := rfl

@[simp] theorem run_isTracked : isTracked.run s = (false, s) := rfl

@[simp] theorem run_deleteVersion : deleteVersion.run s = ((), s) := rfl

end Run

end StateProgram

end Qau
