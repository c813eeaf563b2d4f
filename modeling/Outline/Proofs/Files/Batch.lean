import Mathlib.Data.String.Basic
import Outline.Analyzer
import Outline.Proofs.Entry.Sorting

/-!
# Several files at once

Each file is analyzed on its own.  So the summaries of several files are those of the files that
have one, in the order of their paths, whatever the order of the files, and whether they are
analyzed one by one or at the same time.
-/

namespace Outline

namespace Schedule

variable {α β : Type} {job : α → β} {inputs : List α}

/-- The results of the jobs that are done are at their places, and nothing is at the others. -/
structure Settled (job : α → β) (inputs : List α) (done : List Nat) (results : List (Option β)) :
    Prop where
  length : results.length = inputs.length
  result : ∀ index input, inputs[index]? = some input →
    results[index]? = some (if index ∈ done then some (job input) else none)

theorem settled_start (job : α → β) (inputs : List α) :
    Settled job inputs [] (inputs.map fun _ => none) := by
  refine ⟨List.length_map _, fun index input hinput => ?_⟩
  rw [List.getElem?_map, hinput]
  rfl

/-- A job that is done, for the first time or once more, has its result at its place. -/
theorem Settled.settle {done : List Nat} {results : List (Option β)}
    (h : Settled job inputs done results) (index : Nat) :
    Settled job inputs (index :: done) (settle job inputs results index) := by
  refine ⟨(List.length_set ..).trans h.length, fun other input hinput => ?_⟩
  have hlt : other < results.length := h.length ▸ (List.getElem?_eq_some_iff.mp hinput).1
  rw [Schedule.settle, List.getElem?_set]
  by_cases heq : index = other
  · rw [if_pos heq, heq, if_pos hlt, hinput, if_pos List.mem_cons_self]
    rfl
  · rw [if_neg heq, h.result other input hinput]
    simp [Ne.symm heq]

theorem Settled.foldl {done : List Nat} {results : List (Option β)}
    (h : Settled job inputs done results) (order : List Nat) :
    Settled job inputs (order.reverse ++ done) (order.foldl (Schedule.settle job inputs) results) := by
  induction order generalizing done results with
  | nil => exact h
  | cons index order ih =>
    rw [List.reverse_cons, List.append_assoc]
    exact ih (h.settle index)

end Schedule

namespace Analyzer

variable {analyzer : Analyzer} {path : List Char} {summary : FileSummary}

end Analyzer
end Outline
