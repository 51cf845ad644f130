import Qau.Overlay
import Qau.VerkleTree

/-!
# The database handle and its write buffer

`db.Database` as the state layer uses it: single reads, atomic batches and
prefix iterators. A handle is either on the shared database itself or, in
a build copy, on a `Capture` in front of it, which buffers every write and
answers reads from the buffer first. `view` is what a handle's reads see;
a batch changes the view in the same way through either kind of handle
(`view_write`).

Reads and writes of the model do not fail. `writes` is a ghost field, the
batches that have reached the shared database so far, in order: a process
that stops leaves the database after some of them.
-/

namespace Qau

open Std.ExtTreeMap

/-- One operation of a batch: a value, or `none` for a deletion. -/
abbrev BatchOp := Write Bytes Bytes

/-- The two implementations of a database. -/
inductive DbKind where
  | mem
  | bolt
deriving DecidableEq

/-- The most entries `NewIterator` of a `BoltDB` returns. -/
abbrev maxIterations : Nat := 100000

structure Db where
  kind : DbKind
  base : Kv
  /-- The entries of the `Capture`, with `none` for a tombstone. -/
  capture : Option (Fmap Bytes (Option Bytes))

namespace Db

variable {pre : Bytes} {e : Bytes × Bytes}

/-- A handle on a database. -/
def on (kind : DbKind) (base : Kv) : Db := { kind, base, capture := none }

def get (d : Db) (key : Bytes) : Option Bytes :=
  match d.capture with
  | none => d.base[key]?
  | some entries =>
    match entries[key]? with
    | some entry => entry
    | none => d.base[key]?

/-- The contents as the handle sees them (`mergedView`). -/
def view (d : Db) : Kv :=
  match d.capture with
  | none => d.base
  | some entries => writeAll d.base entries.toList

/-- `batch.Write`, also for a single `Put` or `Delete`. -/
def write (d : Db) (ops : List BatchOp) : Db :=
  match d.capture with
  | none => { d with base := writeAll d.base ops }
  | some entries => { d with capture := some (ops.foldl (fun m op => m.insert op.1 op.2) entries) }

/-- The entries under a prefix, in key order (`NewIteratorWithLimit` without
a limit). -/
def items (d : Db) (pre : Bytes) : List (Bytes × Bytes) :=
  d.view.toList.filter fun e => decide (pre <+: e.1)

/-- Whether `NewIterator` stops early with `ErrIteratorTruncated`. -/
def truncated (d : Db) (pre : Bytes) : Bool :=
  match d.capture, d.kind with
  | none, .bolt => decide (maxIterations < (d.items pre).length)
  | _, _ => false

/-- The entries `NewIterator` returns. -/
def iterator (d : Db) (pre : Bytes) : List (Bytes × Bytes) :=
  match d.capture, d.kind with
  | none, .bolt => (d.items pre).take maxIterations
  | _, _ => d.items pre

theorem lastWrite_toList (m : Fmap Bytes (Option Bytes)) (key : Bytes) :
    lastWrite m.toList key = m[key]? := by
  have hnd : (m.toList.map Prod.fst).Nodup := by
    rw [map_fst_toList_eq_keys]
    exact nodup_keys
  refine Option.ext fun v => ?_
  rw [lastWrite_iff_mem hnd, mem_toList_iff_getElem?_eq_some]

theorem getElem?_view (d : Db) (key : Bytes) : d.view[key]? = d.get key := by
  unfold view get
  cases d.capture with
  | none => rfl
  | some entries =>
    dsimp only
    rw [getElem?_writeAll, lastWrite_toList]
    cases entries[key]? <;> rfl

theorem getElem?_foldl_insert (ops : List BatchOp) (m : Fmap Bytes (Option Bytes)) (key : Bytes) :
    (ops.foldl (fun m op => m.insert op.1 op.2) m)[key]? = (lastWrite ops key).or m[key]? := by
  induction ops generalizing m with
  | nil => rfl
  | cons op ops ih =>
    rw [List.foldl_cons, ih, lastWrite_cons, Fmap.getElem?_insert, Option.or_assoc]
    split <;> rfl

/-- A batch has one effect on what is read, buffered or not. -/
@[simp] theorem view_write (d : Db) (ops : List BatchOp) :
    (d.write ops).view = writeAll d.view ops := by
  refine ext_getElem? fun key => ?_
  rw [getElem?_view, getElem?_writeAll, getElem?_view]
  unfold write get
  cases d.capture with
  | none => exact getElem?_writeAll ..
  | some entries =>
    dsimp only
    rw [getElem?_foldl_insert]
    cases lastWrite ops key <;> rfl

theorem mem_items {d : Db} : e ∈ d.items pre ↔ d.view[e.1]? = some e.2 ∧ pre <+: e.1 := by
  rw [items, List.mem_filter, mem_toList_iff_getElem?_eq_some, decide_eq_true_eq]

theorem nodup_keys_items (d : Db) (pre : Bytes) : ((d.items pre).map Prod.fst).Nodup := by
  have h : (d.view.toList.map Prod.fst).Nodup := by
    rw [map_fst_toList_eq_keys]
    exact nodup_keys
  exact h.sublist (List.filter_sublist.map _)

theorem iterator_eq_take (d : Db) (pre : Bytes) :
    d.iterator pre = d.items pre ∨ d.iterator pre = (d.items pre).take maxIterations := by
  unfold iterator
  split
  · exact .inr rfl
  · exact .inl rfl

theorem mem_of_mem_iterator {d : Db} (h : e ∈ d.iterator pre) : e ∈ d.items pre := by
  rcases d.iterator_eq_take pre with heq | heq
  · rwa [heq] at h
  · rw [heq] at h
    exact List.mem_of_mem_take h

end Db

end Qau
