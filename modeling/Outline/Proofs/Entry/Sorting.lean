import Mathlib.Data.List.Basic
import Mathlib.Order.Lattice

/-!
# Lists sorted by a key

Sorting by merging puts entries in the order of a key and leaves those of one key as they were.
-/

namespace Outline

variable {α β κ : Type} [LinearOrder κ] {key : α → κ} {a b c : List α}

/-- The entries of one list in another order, which is the same one for entries of one key. -/
structure Reordered (key : α → κ) (a b : List α) : Prop where
  perm : a.Perm b
  ties : ∀ k, a.filter (fun x => decide (key x = k)) = b.filter fun x => decide (key x = k)

/-- What was recorded, in the order of a key, and for each key in the order of recording. -/
structure SortedFrom (key : α → κ) (recorded sorted : List α) : Prop
    extends Reordered key sorted recorded where
  sorted : sorted.Pairwise fun x y => key x ≤ key y

theorem Reordered.trans (h : Reordered key a b) (h' : Reordered key b c) : Reordered key a c :=
  ⟨h.perm.trans h'.perm, fun k => (h.ties k).trans (h'.ties k)⟩

theorem Reordered.append_left (h : Reordered key a b) (front : List α) :
    Reordered key (front ++ a) (front ++ b) :=
  ⟨h.perm.append_left front, fun k => by rw [List.filter_append, List.filter_append, h.ties]⟩

theorem Reordered.filterMap {key' : β → κ} {f : α → Option β}
    (hf : ∀ x y, f x = some y → key' y = key x) (h : Reordered key a b) :
    Reordered key' (a.filterMap f) (b.filterMap f) := by
  refine ⟨h.perm.filterMap f, fun k => ?_⟩
  have hfilter : ∀ entries : List α, (entries.filterMap f).filter (fun y => decide (key' y = k)) =
      (entries.filter fun x => decide (key x = k)).filterMap f := by
    intro entries
    rw [List.filter_filterMap, List.filterMap_filter]
    refine List.filterMap_congr fun x _ => ?_
    cases hx : f x with
    | none => rw [Option.filter_none, ite_self]
    | some y => rw [Option.filter_some, hf x y hx]
  rw [hfilter, hfilter, h.ties]

/-- Sorting by merging keeps entries of one key in order. -/
theorem sortedFrom_mergeSort {le : α → α → Bool} (hle : ∀ x y, le x y = true ↔ key x ≤ key y)
    (entries : List α) : SortedFrom key entries (entries.mergeSort le) := by
  have htrans : ∀ x y z, le x y = true → le y z = true → le x z = true := fun x y z hxy hyz =>
    (hle x z).mpr (le_trans ((hle x y).mp hxy) ((hle y z).mp hyz))
  have htotal : ∀ x y, (le x y || le y x) = true := fun x y => by
    rw [Bool.or_eq_true, hle, hle]
    exact le_total _ _
  refine ⟨⟨List.mergeSort_perm entries le, fun k => ?_⟩,
    (List.pairwise_mergeSort htrans htotal entries).imp (hle _ _).mp⟩
  -- The entries of one key are in order among themselves, so a stable sort leaves them as they are.
  have hsame : (entries.filter fun x => decide (key x = k)).Pairwise fun x y => le x y = true := by
    refine List.pairwise_of_forall_mem_list fun x hx y hy => (hle x y).mpr ?_
    rw [of_decide_eq_true (List.mem_filter.mp hx).2, of_decide_eq_true (List.mem_filter.mp hy).2]
  have hsublist := (List.sublist_mergeSort htrans htotal hsame List.filter_sublist).filter
    fun x => decide (key x = k)
  rw [List.filter_filter] at hsublist
  simp only [Bool.and_self] at hsublist
  exact (hsublist.eq_of_length
    ((List.mergeSort_perm entries le).symm.filter _).length_eq).symm

end Outline
