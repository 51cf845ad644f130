import Mathlib

/-!
# Programs over a keyed store

Code that works on a state through an interface is a `StoreProgram`: a tree
of requests to that interface with a continuation for each reply; `run` runs
it on a plain store. Snapshots are numbered by the depth of the stack they
are pushed on.

The two requests `tracked` and `discard` are for code that asks whether its
state is a multi-version wrapper and, if so, drops its own versions; on a
plain store the answer is no and nothing is dropped.
-/

namespace Qau

/-- A program over a store that has a value of type `V k` at each key `k`. -/
inductive StoreProgram {κ : Type} (V : κ → Type) (α : Type) where
  | pure (a : α)
  | read (k : κ) (next : V k → StoreProgram V α)
  | write (k : κ) (v : V k) (next : StoreProgram V α)
  | snapshot (next : Nat → StoreProgram V α)
  | revert (id : Nat) (next : StoreProgram V α)
  | release (id : Nat) (next : StoreProgram V α)
  | tracked (next : Bool → StoreProgram V α)
  | discard (next : StoreProgram V α)

namespace StoreProgram

variable {κ : Type} {V : κ → Type} {α β : Type}

def bind : StoreProgram V α → (α → StoreProgram V β) → StoreProgram V β
  | .pure a, f => f a
  | .read k next, f => .read k fun v => (next v).bind f
  | .write k v next, f => .write k v (next.bind f)
  | .snapshot next, f => .snapshot fun id => (next id).bind f
  | .revert id next, f => .revert id (next.bind f)
  | .release id next, f => .release id (next.bind f)
  | .tracked next, f => .tracked fun t => (next t).bind f
  | .discard next, f => .discard (next.bind f)

instance : Monad (StoreProgram V) where
  pure := .pure
  bind := bind

end StoreProgram

/-- A plain store with a stack of saved copies. -/
@[ext] structure Journaled {κ : Type} (V : κ → Type) where
  store : (k : κ) → V k
  frames : List ((k : κ) → V k) := []

namespace StoreProgram

variable {κ : Type} {V : κ → Type} {α β : Type}

/-- Going back to frame `id` restores the copy and drops the frames from it
on; an unknown frame is ignored. -/
def restore (s : Journaled V) (id : Nat) : Journaled V :=
  match s.frames[id]? with
  | some saved => { store := saved, frames := s.frames.take id }
  | none => s

/-- Going back to the frame on top restores the store and the stack. -/
@[simp] theorem restore_push (s : Journaled V) (now : (k : κ) → V k) :
    restore { store := now, frames := s.frames ++ [s.store] } s.frames.length = s := by
  simp [restore]

variable [DecidableEq κ]

/-- Run on a plain store. -/
def run : StoreProgram V α → Journaled V → α × Journaled V
  | .pure a, s => (a, s)
  | .read k next, s => (next (s.store k)).run s
  | .write k v next, s => next.run { s with store := Function.update s.store k v }
  | .snapshot next, s =>
    (next s.frames.length).run { s with frames := s.frames ++ [s.store] }
  | .revert id next, s => next.run (restore s id)
  | .release id next, s => next.run { s with frames := s.frames.take id }
  | .tracked next, s => (next false).run s
  | .discard next, s => next.run s

@[simp] theorem run_pure (a : α) (s : Journaled V) :
    (Pure.pure a : StoreProgram V α).run s = (a, s) := rfl

theorem run_bind' (p : StoreProgram V α) (f : α → StoreProgram V β) (s : Journaled V) :
    (p.bind f).run s = (f (p.run s).1).run (p.run s).2 := by
  induction p generalizing s with
  | pure a => rfl
  | read k next ih | snapshot next ih | tracked next ih => exact ih _ _
  | write k v next ih | revert id next ih | release id next ih | discard next ih => exact ih _

@[simp] theorem run_bind (p : StoreProgram V α) (f : α → StoreProgram V β) (s : Journaled V) :
    (p >>= f).run s = (f (p.run s).1).run (p.run s).2 :=
  run_bind' p f s

end StoreProgram

end Qau
