import Outline.Files.Path
import Outline.Proofs.Text.Line

/-!
# Names below a directory, and the order of paths

No name holds a slash, so the names that a path leads through below a directory can be
read off the path again.  Paths are compared component by component.
-/

namespace Outline

/-! ## Extensions -/

namespace Text

theorem cutLast?_singleton_isSome (c : Char) (text : List Char) :
    (cutLast? [c] text).isSome = text.contains c := by
  induction text with
  | nil => rfl
  | cons d text ih =>
    rw [cutLast?, List.contains_cons, ← ih]
    cases cutLast? [c] text with
    | some parts => simp
    | none => by_cases hc : c = d <;> simp [dropLead?, hc]

/-- What stands after the last occurrence of a character does not have the character. -/
theorem notMem_of_cutLast? {c : Char} {text before after : List Char}
    (h : cutLast? [c] text = some (before, after)) : c ∉ after := by
  induction text generalizing before with
  | nil => cases h
  | cons d text ih =>
    rw [cutLast?] at h
    cases hcut : cutLast? [c] text with
    | some parts =>
      simp only [hcut, Option.some.injEq, Prod.mk.injEq] at h
      exact ih (by rw [hcut, ← h.2])
    | none =>
      have hmem := cutLast?_singleton_isSome c text
      rw [hcut] at hmem h
      obtain ⟨rest, hdrop, heq⟩ := Option.map_eq_some_iff.mp h
      obtain ⟨-, rfl⟩ := Prod.mk.inj heq
      have hrest : text = rest := by
        rw [dropLead?] at hdrop
        split at hdrop
        · simpa [dropLead?] using hdrop
        · cases hdrop
      simpa [hrest] using hmem

end Text

/-- The extension of a path has no dot, so it stands for itself where leading dots are
dropped. -/
theorem Path.extension?_dropWhile (path : List Char) :
    ((extension? path).getD []).dropWhile (· == '.') = (extension? path).getD [] := by
  cases hext : extension? path with
  | none => rfl
  | some extension =>
    obtain ⟨name, -, hname⟩ := Option.bind_eq_some_iff.mp hext
    obtain ⟨⟨stem, after⟩, hcut, hstem⟩ := Option.bind_eq_some_iff.mp hname
    have hdot : '.' ∉ extension := by
      by_cases hempty : stem.isEmpty
      · simp [hempty] at hstem
      · obtain rfl : after = extension := by simpa [hempty] using hstem
        exact Text.notMem_of_cutLast? hcut
    cases extension with
    | nil => rfl
    | cons c extension =>
      have hc : (c == '.') = false := beq_false_of_ne (List.ne_of_not_mem_cons hdot).symm
      simp [hc]

/-! ## Order -/

namespace Component

theorem isBefore_iff {a b : Component} :
    a.isBefore b = true ↔ a.rank < b.rank ∨ a.rank = b.rank ∧ a.text < b.text := by
  simp [isBefore]

theorem isBefore_self (a : Component) : a.isBefore a = false := by
  simp [isBefore, List.lt_irrefl]

theorem isBefore_trans {a b c : Component} (hab : a.isBefore b = true)
    (hbc : b.isBefore c = true) : a.isBefore c = true := by
  rw [isBefore_iff] at hab hbc ⊢
  rcases hab with hab | ⟨hab, htext⟩
  · left; omega
  · rcases hbc with hbc | ⟨hbc, htext'⟩
    · left; omega
    · exact .inr ⟨hab.trans hbc, List.lt_trans htext htext'⟩

theorem eq_of_rank_eq {a b : Component} (hrank : a.rank = b.rank) (htext : a.text = b.text) :
    a = b := by
  cases a <;> cases b <;> simp_all [rank, text, name?]

theorem isBefore_total {a b : Component} (h : a ≠ b) :
    a.isBefore b = true ∨ b.isBefore a = true := by
  rw [isBefore_iff, isBefore_iff]
  rcases Nat.lt_trichotomy a.rank b.rank with hlt | heq | hgt
  · exact .inl (.inl hlt)
  · by_cases hab : a.text < b.text
    · exact .inl (.inr ⟨heq, hab⟩)
    · by_cases hba : b.text < a.text
      · exact .inr (.inr ⟨heq.symm, hba⟩)
      · have htext : a.text = b.text :=
          List.le_antisymm (List.not_lt.mp hba) (List.not_lt.mp hab)
        exact absurd (eq_of_rank_eq heq htext) h
  · exact .inr (.inl hgt)

end Component

namespace Path

theorem areOrdered_trans {as bs cs : List Component} (hab : areOrdered as bs = true)
    (hbc : areOrdered bs cs = true) : areOrdered as cs = true := by
  induction as generalizing bs cs with
  | nil => rfl
  | cons a as ih =>
    match bs, cs, hab, hbc with
    | b :: bs, c :: cs, hab, hbc =>
      rw [areOrdered] at hab hbc ⊢
      by_cases hb : a = b
      · subst hb
        by_cases hc : a = c
        · rw [if_pos rfl] at hab
          rw [if_pos hc] at hbc ⊢
          exact ih hab hbc
        · rw [if_neg hc] at hbc ⊢
          exact hbc
      · rw [if_neg hb] at hab
        by_cases hc : b = c
        · subst hc
          rwa [if_neg hb]
        · rw [if_neg hc] at hbc
          have hac := Component.isBefore_trans hab hbc
          have hne : a ≠ c := by
            rintro rfl
            rw [Component.isBefore_self] at hac
            cases hac
          rwa [if_neg hne]

theorem areOrdered_total (as bs : List Component) :
    areOrdered as bs = true ∨ areOrdered bs as = true := by
  induction as generalizing bs with
  | nil => exact .inl rfl
  | cons a as ih =>
    cases bs with
    | nil => exact .inr rfl
    | cons b bs =>
      rw [areOrdered, areOrdered]
      by_cases hb : a = b
      · rw [if_pos hb, if_pos hb.symm]
        exact ih bs
      · rw [if_neg hb, if_neg (Ne.symm hb)]
        exact Component.isBefore_total hb

theorem isAtMost_trans (a b c : List Char) (hab : isAtMost a b = true)
    (hbc : isAtMost b c = true) : isAtMost a c = true := areOrdered_trans hab hbc

theorem isAtMost_total (a b : List Char) : (isAtMost a b || isAtMost b a) = true := by
  rw [Bool.or_eq_true]
  exact areOrdered_total _ _

/-! ## Names below a directory -/

/-- Names are not empty and have no slash. -/
def IsName (name : List Char) : Prop := name ≠ [] ∧ '/' ∉ name

instance (name : List Char) : Decidable (IsName name) :=
  inferInstanceAs (Decidable (name ≠ [] ∧ '/' ∉ name))

/-- The path that leads on from a directory through names. -/
def below (directory : List Char) (names : List (List Char)) : List Char :=
  names.foldl child directory

/-- What stands between a directory and a name in it. -/
def separator (directory : List Char) : List Char :=
  if directory.isEmpty || directory.getLast? = some '/' then [] else ['/']

theorem child_eq (directory name : List Char) :
    child directory name = directory ++ (separator directory ++ name) := by
  cases directory with
  | nil => rfl
  | cons c directory =>
    rw [child, separator]
    by_cases hlast : (c :: directory).getLast? = some '/' <;> simp [hlast]

theorem separator_child {name : List Char} (h : IsName name) (directory : List Char) :
    separator (child directory name) = ['/'] := by
  obtain ⟨hne, hslash⟩ := h
  have hlast : (child directory name).getLast? = some (name.getLast hne) := by
    rw [child_eq, ← List.append_assoc, List.getLast?_append, List.getLast?_eq_some_getLast hne,
      Option.some_or]
  have hempty : (child directory name).isEmpty = false := by
    simp [child_eq, hne]
  have hchar : name.getLast hne ≠ '/' := fun heq => hslash (heq ▸ List.getLast_mem hne)
  rw [separator, hlast, hempty]
  simp [hchar]

theorem below_cons {name : List Char} {names : List (List Char)}
    (h : ∀ step ∈ name :: names, IsName step) (directory : List Char) :
    below directory (name :: names) =
      directory ++ (separator directory ++ (name ++ names.flatMap ('/' :: ·))) := by
  induction names generalizing directory name with
  | nil => rw [List.flatMap_nil, List.append_nil, ← child_eq]; rfl
  | cons next names ih =>
    have hnext := ih (fun step hs => h step (List.mem_cons_of_mem _ hs)) (child directory name)
    rw [separator_child (h name List.mem_cons_self)] at hnext
    calc below directory (name :: next :: names)
        = below (child directory name) (next :: names) := rfl
      _ = _ := by rw [hnext, child_eq]; simp

theorem splitAt_names {name : List Char} {names : List (List Char)}
    (h : ∀ step ∈ name :: names, IsName step) :
    Text.splitAt '/' (name ++ names.flatMap ('/' :: ·)) = name :: names := by
  induction names generalizing name with
  | nil =>
    rw [Text.splitAt_append_of_notMem (h name List.mem_cons_self).2]
    simp [Text.splitAt]
  | cons next names ih =>
    have hnext := ih fun step hs => h step (List.mem_cons_of_mem _ hs)
    rw [List.flatMap_cons, List.cons_append,
      Text.splitAt_append_of_notMem (h name List.mem_cons_self).2, Text.splitAt, if_pos rfl, hnext]
    simp

/-- Different names lead to different paths. -/
theorem below_injective {directory : List Char} {names others : List (List Char)}
    (hnames : ∀ step ∈ names, IsName step) (hothers : ∀ step ∈ others, IsName step)
    (h : below directory names = below directory others) : names = others := by
  have hleaves : ∀ {name : List Char} {names : List (List Char)},
      (∀ step ∈ name :: names, IsName step) → below directory (name :: names) ≠ directory := by
    intro name names hsteps heq
    rw [below_cons hsteps, List.append_right_eq_self] at heq
    exact (hsteps name List.mem_cons_self).1 (by simp_all)
  match names, others with
  | [], [] => rfl
  | [], other :: others => exact absurd h.symm (hleaves hothers)
  | name :: names, [] => exact absurd h (hleaves hnames)
  | name :: names, other :: others =>
    rw [below_cons hnames, below_cons hothers, List.append_cancel_left_eq,
      List.append_cancel_left_eq] at h
    rw [← splitAt_names hnames, h, splitAt_names hothers]

end Path
end Outline
