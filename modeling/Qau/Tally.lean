import Mathlib

/-!
# Counting every voter once

A tally runs over ballots in some order, takes the first ballot of every
voter and adds the voter's weight. Whatever the order, the voters it lists
are distinct, each of them cast a ballot, and the total is the sum of their
weights.
-/

namespace Qau

variable {β κ : Type}

/-- One ballot: a voter seen before changes nothing. -/
def tallyStep [DecidableEq κ] (voter : β → κ) (weight : κ → Int) (acc : List κ × Int) (b : β) : List κ × Int :=
  if voter b ∈ acc.1 then acc else (acc.1 ++ [voter b], acc.2 + weight (voter b))

/-- The voters so far are distinct, cast one of `ballots`, and weigh the
total. -/
structure TallyOf (voter : β → κ) (weight : κ → Int) (ballots : List β) (acc : List κ × Int) :
    Prop where
  nodup : acc.1.Nodup
  cast : ∀ k ∈ acc.1, ∃ b ∈ ballots, voter b = k
  total : acc.2 = (acc.1.map weight).sum

variable {voter : β → κ} {weight : κ → Int}

theorem TallyOf.nil (ballots : List β) : TallyOf voter weight ballots ([], 0) where
  nodup := List.nodup_nil
  cast := by simp
  total := rfl

variable [DecidableEq κ]

theorem TallyOf.step {ballots : List β} {acc : List κ × Int} (h : TallyOf voter weight ballots acc)
    {b : β} (hb : b ∈ ballots) : TallyOf voter weight ballots (tallyStep voter weight acc b) := by
  unfold tallyStep
  split_ifs with hseen
  · exact h
  · refine ⟨?_, ?_, ?_⟩
    · refine List.nodup_append.mpr ⟨h.nodup, List.nodup_singleton _, ?_⟩
      intro a ha c hc
      rw [List.mem_singleton.mp hc]
      exact fun heq => hseen (heq ▸ ha)
    · intro k hk
      rcases List.mem_append.mp hk with hk | hk
      · exact h.cast k hk
      · exact ⟨b, hb, (List.mem_singleton.mp hk).symm⟩
    · simp [h.total]

theorem TallyOf.foldl {ballots l : List β} {acc : List κ × Int}
    (h : TallyOf voter weight ballots acc) (hl : ∀ b ∈ l, b ∈ ballots) :
    TallyOf voter weight ballots (l.foldl (tallyStep voter weight) acc) := by
  induction l generalizing acc with
  | nil => exact h
  | cons b l ih =>
    exact ih (h.step (hl b List.mem_cons_self)) fun c hc => hl c (List.mem_cons_of_mem _ hc)

end Qau
