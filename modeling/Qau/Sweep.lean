import Mathlib

/-!
# Instruction streams with immediate data

A byte code is a list of cells. An instruction occupies one cell and the
`imm` cells after it, which are data; a *sweep* walks the instructions from
left to right and skips the data. `sweep` lists what such a walk visits,
`recode` is a walk that replaces every instruction, copies the data and
fills up what is missing of the last instruction's data.

The recursion is over the cells. `skip` counts the data cells still to
pass, so that no cell is looked up by its index.

Main result: a recoding that keeps the length of the data keeps every
instruction in its place (`sweep_recode`).
-/

namespace Qau

/-! ## Walks over related lists -/

theorem exists_right_of_forall₂ {α β : Type} {R : α → β → Prop} {l : List α} {l' : List β}
    (h : List.Forall₂ R l l') {a : α} (ha : a ∈ l) : ∃ b ∈ l', R a b := by
  induction h with
  | nil => simp at ha
  | cons hab _ ih =>
    rcases List.mem_cons.1 ha with rfl | ha
    · exact ⟨_, List.mem_cons_self, hab⟩
    · obtain ⟨b, hb, hr⟩ := ih ha
      exact ⟨b, List.mem_cons_of_mem _ hb, hr⟩

theorem forM_eq_ok_iff {ε α : Type} {f : α → Except ε Unit} {l : List α} :
    l.forM f = .ok () ↔ ∀ a ∈ l, f a = .ok () := by
  induction l with
  | nil => simp [List.forM, pure, Except.pure]
  | cons a l ih =>
    rw [List.forM, List.forall_mem_cons, ← ih]
    cases f a <;> simp [bind, Except.bind]

/-! ## The walk -/

section
variable {α : Type} (imm : α → Nat)

/-- The instructions of `code` with their offsets, for a walk that stands at
offset `pc` with `skip` cells of data ahead. -/
def sweepFrom : (skip pc : Nat) → List α → List (Nat × α)
  | _, _, [] => []
  | 0, pc, a :: code => (pc, a) :: sweepFrom (imm a) (pc + 1) code
  | skip + 1, pc, _ :: code => sweepFrom skip (pc + 1) code

/-- The instructions of `code` with their offsets. -/
def sweep (code : List α) : List (Nat × α) := sweepFrom imm 0 0 code

end

section
variable {α : Type} {imm : α → Nat}

@[simp] theorem sweepFrom_nil (skip pc : Nat) : sweepFrom imm skip pc [] = [] := by
  cases skip <;> rfl

theorem getElem?_of_mem_sweepFrom {skip pc : Nat} {code : List α} {i : Nat × α}
    (h : i ∈ sweepFrom imm skip pc code) : pc ≤ i.1 ∧ code[i.1 - pc]? = some i.2 := by
  induction code generalizing skip pc with
  | nil => simp at h
  | cons a code ih =>
    have further : ∀ {skip}, i ∈ sweepFrom imm skip (pc + 1) code →
        pc ≤ i.1 ∧ (a :: code)[i.1 - pc]? = some i.2 := by
      intro skip h
      obtain ⟨hle, hi⟩ := ih h
      refine ⟨by omega, ?_⟩
      rw [show i.1 - pc = (i.1 - (pc + 1)) + 1 by omega, List.getElem?_cons_succ]
      exact hi
    cases skip with
    | succ skip => exact further h
    | zero =>
      rcases List.mem_cons.1 h with rfl | h
      · simp
      · exact further h

theorem getElem?_of_mem_sweep {code : List α} {i : Nat × α} (h : i ∈ sweep imm code) :
    code[i.1]? = some i.2 := by
  simpa using (getElem?_of_mem_sweepFrom h).2

end

/-! ## Recoding -/

section
variable {ε α β : Type} (imm : α → Nat) (f : Nat → α → Except ε β) (lit : α → β) (pad : β)

/-- Replace the instruction `a` at offset `pc` by `f pc a` and every cell of
data by `lit`; the first instruction without a replacement stops the walk. -/
def recodeFrom : (skip pc : Nat) → List α → Except ε (List β)
  | skip, _, [] => .ok (List.replicate skip pad)
  | 0, pc, a :: code => do
      let b ← f pc a
      let out ← recodeFrom (imm a) (pc + 1) code
      return b :: out
  | skip + 1, pc, a :: code => do
      let out ← recodeFrom skip (pc + 1) code
      return lit a :: out

def recode (code : List α) : Except ε (List β) := recodeFrom imm f lit pad 0 0 code

end

section
variable {ε α β : Type} {imm : α → Nat} {f : Nat → α → Except ε β} {lit : α → β} {pad : β}

@[simp] theorem recodeFrom_nil (skip pc : Nat) :
    recodeFrom imm f lit pad skip pc [] = .ok (List.replicate skip pad) := by
  cases skip <;> rfl

theorem recodeFrom_cons_eq_ok {pc : Nat} {a : α} {code : List α} {out : List β} :
    recodeFrom imm f lit pad 0 pc (a :: code) = .ok out ↔
      ∃ b out', f pc a = .ok b ∧ recodeFrom imm f lit pad (imm a) (pc + 1) code = .ok out' ∧
        out = b :: out' := by
  rw [recodeFrom]
  cases f pc a with
  | error e => simp [bind, Except.bind]
  | ok b =>
    cases recodeFrom imm f lit pad (imm a) (pc + 1) code with
    | error e => simp [bind, Except.bind]
    | ok out' => simp [bind, Except.bind, pure, Except.pure, eq_comm]

theorem recodeFrom_skip_eq_ok {skip pc : Nat} {a : α} {code : List α} {out : List β} :
    recodeFrom imm f lit pad (skip + 1) pc (a :: code) = .ok out ↔
      ∃ out', recodeFrom imm f lit pad skip (pc + 1) code = .ok out' ∧ out = lit a :: out' := by
  rw [recodeFrom]
  cases recodeFrom imm f lit pad skip (pc + 1) code with
  | error e => simp [bind, Except.bind]
  | ok out' => simp [bind, Except.bind, pure, Except.pure, eq_comm]

section
variable {imm' : β → Nat}

theorem sweepFrom_replicate (skip pc : Nat) : sweepFrom imm' skip pc (List.replicate skip pad) = [] := by
  induction skip generalizing pc with
  | zero => rfl
  | succ skip ih => exact ih (pc + 1)

theorem sweepFrom_recodeFrom (himm : ∀ pc a b, f pc a = .ok b → imm' b = imm a) {skip pc : Nat}
    {code : List α} {out : List β} (h : recodeFrom imm f lit pad skip pc code = .ok out) :
    List.Forall₂ (fun i j => i.1 = j.1 ∧ f i.1 i.2 = .ok j.2)
      (sweepFrom imm skip pc code) (sweepFrom imm' skip pc out) := by
  induction code generalizing skip pc out with
  | nil =>
    rw [recodeFrom_nil, Except.ok.injEq] at h
    rw [← h, sweepFrom_nil, sweepFrom_replicate]
    exact .nil
  | cons a code ih =>
    cases skip with
    | zero =>
      obtain ⟨b, out', hb, hout, rfl⟩ := recodeFrom_cons_eq_ok.1 h
      rw [sweepFrom, sweepFrom, himm pc a b hb]
      exact .cons ⟨rfl, hb⟩ (ih hout)
    | succ skip =>
      obtain ⟨out', hout, rfl⟩ := recodeFrom_skip_eq_ok.1 h
      exact ih hout

/-- A recoding that keeps the length of the data keeps every instruction in
its place. -/
theorem sweep_recode (himm : ∀ pc a b, f pc a = .ok b → imm' b = imm a)
    {code : List α} {out : List β} (h : recode imm f lit pad code = .ok out) :
    List.Forall₂ (fun i j => i.1 = j.1 ∧ f i.1 i.2 = .ok j.2) (sweep imm code) (sweep imm' out) :=
  sweepFrom_recodeFrom himm h

end

end

end Qau
