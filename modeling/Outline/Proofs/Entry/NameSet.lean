import Outline.Entry.NameSet

/-!
# Sets of names and their lists

The names of a set, added in order to no name, are the set again.  A set is told by its names.
-/

namespace Outline

/-- A name above all others is put at the end. -/
theorem insertName_of_forall_lt {name : String} {names : List String}
    (h : ∀ x ∈ names, x < name) : insertName name names = names ++ [name] := by
  induction names with
  | nil => rfl
  | cons first rest ih =>
    obtain ⟨hfirst, hrest⟩ := List.forall_mem_cons.mp h
    have hne : name ≠ first := fun heq => String.lt_irrefl _ (heq ▸ hfirst)
    rw [insertName, if_neg (String.lt_asymm hfirst), if_neg hne, ih hrest, List.cons_append]

namespace NameSet

theorem toList_foldl_insert {set : NameSet} {names : List String}
    (h : (set.toList ++ names).Pairwise (· < ·)) :
    (names.foldl insert set).toList = set.toList ++ names := by
  induction names generalizing set with
  | nil => exact (List.append_nil _).symm
  | cons name names ih =>
    have hinsert : (set.insert name).toList = set.toList ++ [name] :=
      insertName_of_forall_lt fun x hx =>
        (List.pairwise_append.mp h).2.2 x hx name List.mem_cons_self
    have happend : set.toList ++ name :: names = (set.insert name).toList ++ names := by
      rw [hinsert, List.append_assoc, List.singleton_append]
    rw [List.foldl_cons, ih (happend ▸ h), happend]

theorem ofList_toList (set : NameSet) : ofList set.toList = set := by
  have h := @toList_foldl_insert empty set.toList set.sorted
  cases set
  exact (mk.injEq _ _ _ _).mpr h

theorem mem_foldl_insert {set : NameSet} {names : List String} {x : String} :
    x ∈ names.foldl insert set ↔ x ∈ set ∨ x ∈ names := by
  induction names generalizing set with
  | nil => simp
  | cons name names ih =>
    rw [List.foldl_cons, ih, mem_insert, List.mem_cons, or_comm (a := x = name), or_assoc]

@[simp] theorem mem_ofList {names : List String} {x : String} : x ∈ ofList names ↔ x ∈ names := by
  rw [ofList, mem_foldl_insert]
  simp

@[simp] theorem mem_union {a b : NameSet} {x : String} : x ∈ a ∪ b ↔ x ∈ a ∨ x ∈ b :=
  mem_foldl_insert

/-- Sets with the same names are the same. -/
theorem ext {a b : NameSet} (h : ∀ x, x ∈ a ↔ x ∈ b) : a = b := by
  have hnodup : ∀ set : NameSet, set.toList.Nodup := fun set =>
    set.sorted.imp fun {x y} (hlt : x < y) (heq : x = y) => String.lt_irrefl y (heq ▸ hlt)
  have hperm : a.toList.Perm b.toList := (List.perm_ext_iff_of_nodup (hnodup a) (hnodup b)).mpr h
  have hlist := List.Perm.eq_of_pairwise (fun _ _ _ _ hlt hgt => absurd hgt (String.lt_asymm hlt))
    a.sorted b.sorted hperm
  cases a
  cases b
  exact (mk.injEq _ _ _ _).mpr hlist

end NameSet
end Outline
