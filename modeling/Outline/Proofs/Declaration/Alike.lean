import Mathlib.Data.List.Forall2
import Outline.Proofs.Declaration.NamePattern
import Outline.Proofs.Text.Alike

/-!
# Parameters of alike texts

Where literals hold no character that a reader of parameters looks for, alike lists
of parameters are split at the same places, and each parameter has the same name and
the same default sign on both sides; their types are alike.
-/

namespace Outline

open Stand (isQuote closes breaks)

namespace Parameter

/-- Whether a literal may hold a character unnoticed: no separator and no bracket, no
equals sign where it starts a default, and no mark of a pointer behind the parenthesis
of a raw string. -/
def isQuiet (rules : ParameterRules) (raw : Bool) (c : Char) : Bool :=
  c != ',' && c != '(' && c != ')' && c != '[' && c != ']' && c != '\x7b' && c != '\x7d'
    && c != '<' && c != '>' && !(rules.defaults && c == '=') && !(raw && isPointerMark c)

/-- What literals of a parameter list may hold. -/
def Quiet (rules : ParameterRules) (raw : Bool) (c : Char) : Prop := isQuiet rules raw c = true

variable {rules : ParameterRules} {p q : Stand} {s t : List Char}

theorem quiet_space (rules : ParameterRules) (raw : Bool) : Quiet rules raw ' ' := by
  cases raw <;> simp [Quiet, isQuiet, isPointerMark]

/-! ## Pieces -/

/-- What a literal holds belongs to the piece that has been begun. -/
theorem Quiet.splitTopLevelFrom_cons {raw : Bool} {c : Char} (h : Quiet rules raw c)
    (nesting : Nesting) (piece rest : List Char) :
    splitTopLevelFrom ',' nesting piece (c :: rest) =
      splitTopLevelFrom ',' { nesting with previous := some c } (c :: piece) rest := by
  simp only [Quiet, isQuiet, Bool.and_eq_true, bne_iff_ne] at h
  have hafter : nesting.after c = { nesting with previous := some c } := by
    simp [Nesting.after, Nesting.isBracket, h]
  rw [splitTopLevelFrom, hafter, if_neg (by simp [Nesting.splits, h])]

/-- The groups open in two alike texts at one place, where the characters before it may
be contents of literals. -/
structure SameNesting (p : Stand) (a b : Nesting) : Prop where
  depth : a.depth = b.depth
  angles : a.angles = b.angles
  previous : p.Closed → a.previous = b.previous

theorem SameNesting.eq {a b : Nesting} (h : SameNesting p a b) (hp : p.Closed) : a = b := by
  cases a
  cases b
  simpa using ⟨h.depth, h.angles, h.previous hp⟩

theorem SameNesting.after_eq {a b : Nesting} {c : Char} (h : SameNesting p a b)
    (hc : ∀ raw, p = .inside raw → closes c = true) : a.after c = b.after c := by
  by_cases hclosed : p.Closed
  · rw [h.eq hclosed]
  · obtain ⟨raw, hraw⟩ := Stand.exists_eq_inside hclosed
    have hangle : c ≠ '>' := fun hangle => absurd (hangle ▸ hc raw hraw) (by decide)
    simp [Nesting.after, Nesting.isBracket, h.depth, h.angles, hangle]

theorem SameNesting.splits_eq {a b : Nesting} (h : SameNesting p a b) (c : Char) :
    a.splits ',' c = b.splits ',' c := by
  by_cases hc : c = ','
  · subst hc
    simp [Nesting.splits, Nesting.isTop, Nesting.isBracket, h.depth, h.angles]
  · rw [Nesting.splits, Nesting.splits, beq_false_of_ne hc]
    rfl

theorem closed_of_not_closes {c : Char} (hc : ∀ raw, p = .inside raw → closes c = true)
    (h : closes c = false) : p.Closed := by
  intro raw hraw
  have hcloses := hc raw hraw
  rw [h] at hcloses
  exact Bool.false_ne_true hcloses

theorem forall₂_splitTopLevelFrom (h : Alike (Quiet rules) p s t q) (hq : q.Closed)
    {a b : Nesting} (hn : SameNesting p a b) {x y : List Char}
    (hxy : Alike (Quiet rules) .code x.reverse y.reverse p) :
    List.Forall₂ (AlikeTexts (Quiet rules)) (splitTopLevelFrom ',' a x s)
      (splitTopLevelFrom ',' b y t) := by
  induction h generalizing a b x y with
  | nil p => exact .cons ⟨p, hxy, hq⟩ .nil
  | @keep p q s t c hc h ih =>
    rw [splitTopLevelFrom, splitTopLevelFrom, hn.splits_eq c, hn.after_eq hc]
    split
    · next hsplits =>
      have hcomma : c = ',' := by
        simp only [Nesting.splits, Bool.and_eq_true, beq_iff_eq] at hsplits
        exact hsplits.1.1
      subst hcomma
      have hp : p.Closed := closed_of_not_closes hc rfl
      rw [Stand.after_of_breaks (by decide) p] at ih
      exact .cons ⟨p, hxy, hp⟩ (ih hq ⟨rfl, rfl, fun _ => rfl⟩ (.nil .code))
    · exact ih hq ⟨rfl, rfl, fun _ => rfl⟩ (hxy.snoc_keep hc)
  | @hide p q s t raw c hp hc h ih =>
    rw [hc.splitTopLevelFrom_cons]
    have hnext : SameNesting (.inside raw) { a with previous := some c } b :=
      ⟨hn.depth, hn.angles, fun hclosed => absurd hclosed (Stand.not_closed_inside raw)⟩
    exact ih hq hnext (hxy.snoc_hide hp hc)
  | @fill p q s t raw c hp hc h ih =>
    rw [hc.splitTopLevelFrom_cons]
    have hnext : SameNesting (.inside raw) a { b with previous := some c } :=
      ⟨hn.depth, hn.angles, fun hclosed => absurd hclosed (Stand.not_closed_inside raw)⟩
    exact ih hq hnext (hxy.snoc_fill hp hc)

theorem forall₂_splitTopLevel (h : AlikeTexts (Quiet rules) s t) :
    List.Forall₂ (AlikeTexts (Quiet rules)) (splitTopLevel ',' s) (splitTopLevel ',' t) := by
  obtain ⟨q, h, hq⟩ := h
  exact forall₂_splitTopLevelFrom h hq ⟨rfl, rfl, fun _ => rfl⟩ (.nil .code)

/-! ## Defaults -/

theorem Quiet.splitDefaultFrom_cons {raw : Bool} {c : Char} (h : Quiet rules raw c)
    (hd : rules.defaults = true) (depth : Int) (before rest : List Char) :
    splitDefaultFrom depth before (c :: rest) = splitDefaultFrom depth (c :: before) rest := by
  simp only [Quiet, isQuiet, hd, Bool.true_and, Bool.and_eq_true, bne_iff_ne, Bool.not_eq_true',
    beq_eq_false_iff_ne] at h
  simp [splitDefaultFrom, h]

theorem alike_splitDefaultFrom (hd : rules.defaults = true) (h : Alike (Quiet rules) p s t q)
    (hq : q.Closed) (depth : Int) {x y : List Char}
    (hxy : Alike (Quiet rules) .code x.reverse y.reverse p)
    (hhead : p.Closed → x.head? = y.head?) :
    AlikeTexts (Quiet rules) (splitDefaultFrom depth x s).1 (splitDefaultFrom depth y t).1 ∧
      (splitDefaultFrom depth x s).2.isSome = (splitDefaultFrom depth y t).2.isSome := by
  induction h generalizing depth x y with
  | nil p => exact ⟨AlikeTexts.trim ⟨p, hxy, hq⟩, rfl⟩
  | @keep p q s t c hc h ih =>
    -- Only an equals sign looks at its neighbours, and it never stands inside of a literal.
    have hassign : (c == '=' && decide (depth ≤ 0) && isAssignment x.head? s) =
        (c == '=' && decide (depth ≤ 0) && isAssignment y.head? t) := by
      by_cases heq : c = '='
      · subst heq
        rw [Stand.after_of_breaks (by decide) p] at h
        rw [hhead (closed_of_not_closes hc rfl), isAssignment, isAssignment, h.head?_eq]
      · rw [beq_false_of_ne heq, Bool.false_and, Bool.false_and, Bool.false_and]
    have hnext := fun depth => ih hq depth (hxy.snoc_keep hc) fun _ => rfl
    rw [splitDefaultFrom, splitDefaultFrom, hassign]
    split
    · exact hnext _
    · split
      · exact hnext _
      · split
        · next hequals =>
          simp only [Bool.and_eq_true, beq_iff_eq] at hequals
          have hp : p.Closed := closed_of_not_closes hc (hequals.1.1 ▸ rfl)
          exact ⟨AlikeTexts.trim ⟨p, hxy, hp⟩, rfl⟩
        · exact hnext _
  | @hide p q s t raw c hp hc h ih =>
    rw [hc.splitDefaultFrom_cons hd]
    exact ih hq depth (hxy.snoc_hide hp hc) fun hclosed =>
      absurd hclosed (Stand.not_closed_inside raw)
  | @fill p q s t raw c hp hc h ih =>
    rw [hc.splitDefaultFrom_cons hd]
    exact ih hq depth (hxy.snoc_fill hp hc) fun hclosed =>
      absurd hclosed (Stand.not_closed_inside raw)

/-- A declaration in front of its default, if the language has defaults. -/
def withoutDefault (rules : ParameterRules) (declaration : List Char) :
    List Char × Option (List Char) :=
  if rules.defaults then splitDefault declaration else (Text.trim declaration, none)

theorem alike_withoutDefault (h : AlikeTexts (Quiet rules) s t) :
    AlikeTexts (Quiet rules) (withoutDefault rules s).1 (withoutDefault rules t).1 ∧
      (withoutDefault rules s).2.isSome = (withoutDefault rules t).2.isSome := by
  rw [withoutDefault, withoutDefault]
  split
  · next hd =>
    obtain ⟨q, h, hq⟩ := h
    exact alike_splitDefaultFrom hd h hq 0 (.nil .code) fun _ => rfl
  · exact ⟨h.trim, rfl⟩

/-! ## Annotations -/

theorem not_quiet_of {c : Char} (h : isQuiet rules false c = false) (raw : Bool) :
    ¬ Quiet rules raw c := by
  intro hc
  cases raw with
  | false =>
    rw [Quiet, h] at hc
    exact Bool.false_ne_true hc
  | true =>
    simp only [Quiet, isQuiet, Bool.and_eq_true] at hc
    simp [isQuiet, hc] at h

theorem isQuote_of_isAnnotationChar {c : Char} (h : isAnnotationChar c = true) :
    isQuote c = false := by
  rcases Bool.or_eq_true_iff.mp h with h | h
  · exact Stand.isQuote_of_isWordChar h
  · exact (beq_iff_eq.mp h) ▸ rfl

theorem closes_of_isAnnotationChar {c : Char} (h : isAnnotationChar c = true) :
    closes c = false := by
  rcases Bool.or_eq_true_iff.mp h with h | h
  · exact Stand.closes_of_isWordChar h
  · exact (beq_iff_eq.mp h) ▸ rfl

theorem alike_argumentsRest? (h : Alike (Quiet rules) .code s t q) {rest : List Char}
    (hs : argumentsRest? s = some rest) :
    ∃ rest', argumentsRest? t = some rest' ∧ Alike (Quiet rules) .code rest rest' q := by
  obtain ⟨gap, inner, rfl, hgap, hinner⟩ := argumentsRest?_eq_some_iff.mp hs
  have hparen : ∀ raw, ¬ Quiet rules raw ')' := not_quiet_of (by simp [isQuiet])
  have hlead : ∀ c ∈ gap ++ ['('], isQuote c = false := by
    intro c hc
    rcases List.mem_append.mp hc with hc | hc
    · exact Stand.isQuote_of_isBlank (hgap c hc)
    · exact List.mem_singleton.mp hc ▸ rfl
  rw [List.append_cons] at h
  obtain ⟨t₁, rfl, h₁⟩ := h.eq_append_of_not_quote hlead
  obtain ⟨inner', rest', r, rfl, hinner', -, hrest⟩ := h₁.exists_append_cons hparen
  rw [Stand.after_of_closes rfl, Stand.after_code_of_not_quote rfl] at hrest
  refine ⟨rest', argumentsRest?_eq_some_iff.mpr ⟨gap, inner', by simp, hgap, fun c hc => ?_⟩, hrest⟩
  have hnot : ')' ∉ inner := fun hmem => by simpa using hinner ')' hmem
  exact bne_iff_ne.mpr fun heq => hnot (hinner'.symm.mem_of_mem hparen (heq ▸ hc))

theorem alike_annotationRest? (h : Alike (Quiet rules) .code s t q) {rest : List Char}
    (hs : annotationRest? ('@' :: s) = some rest) :
    ∃ rest', annotationRest? ('@' :: t) = some rest' ∧ Alike (Quiet rules) .code rest rest' q := by
  obtain ⟨c, word, more, heq, hword, hmore, rfl⟩ := annotationRest?_eq_some hs
  obtain ⟨-, rfl⟩ := List.cons.inj heq
  obtain ⟨more', rfl, h'⟩ := Alike.eq_append_of_not_quote
    (show Alike (Quiet rules) .code (c :: word ++ more) t q from h)
    fun d hd => isQuote_of_isAnnotationChar (hword d hd)
  refine ⟨_, annotationRest?_append hword (h'.head?_eq ▸ hmore), ?_⟩
  cases hargs : argumentsRest? more with
  | some rest =>
    obtain ⟨rest', hargs', hrest⟩ := alike_argumentsRest? h' hargs
    rw [hargs']
    exact hrest
  | none =>
    cases hargs' : argumentsRest? more' with
    | none => exact h'
    | some rest' =>
      obtain ⟨rest, hsome, -⟩ := alike_argumentsRest? h'.symm hargs'
      rw [hargs] at hsome
      exact nomatch hsome

/-- An annotation that a literal seems to hold does not leave it. -/
theorem alike_of_annotationRest?_inside {raw : Bool} (h : Alike (Quiet rules) (.inside raw) s t q)
    {rest : List Char} (hs : annotationRest? ('@' :: s) = some rest) :
    Alike (Quiet rules) (.inside raw) rest t q := by
  obtain ⟨c, word, more, heq, hword, -, rfl⟩ := annotationRest?_eq_some hs
  obtain ⟨-, rfl⟩ := List.cons.inj heq
  have hmore : Alike (Quiet rules) (.inside raw) more t q :=
    Alike.drop_of_inside (w := c :: word) h fun d hd => closes_of_isAnnotationChar (hword d hd)
  cases hargs : argumentsRest? more with
  | none => exact hmore
  | some rest =>
    obtain ⟨gap, inner, rfl, hgap, -⟩ := argumentsRest?_eq_some_iff.mp hargs
    have hopen := hmore.drop_of_inside fun d hd => Stand.closes_of_isBlank (hgap d hd)
    exact absurd hopen (Alike.not_inside_cons (not_quiet_of (by simp [isQuiet]) raw) rfl)

/-- Outside of literals an annotation stands in both texts or in neither. -/
theorem annotationRest?_cases {c : Char} (h : Alike (Quiet rules) (p.after c) s t q) :
    (annotationRest? (c :: s) = none ∧ annotationRest? (c :: t) = none) ∨
      ∃ rest rest', c = '@' ∧ annotationRest? (c :: s) = some rest ∧
        annotationRest? (c :: t) = some rest' ∧ Alike (Quiet rules) .code rest rest' q := by
  by_cases hat : c = '@'
  · subst hat
    rw [Stand.after_of_breaks (by decide)] at h
    cases hs : annotationRest? ('@' :: s) with
    | some rest =>
      obtain ⟨rest', ht, hrest⟩ := alike_annotationRest? h hs
      exact .inr ⟨rest, rest', rfl, rfl, ht, hrest⟩
    | none =>
      cases ht : annotationRest? ('@' :: t) with
      | none => exact .inl ⟨rfl, rfl⟩
      | some rest' =>
        obtain ⟨rest, hsome, -⟩ := alike_annotationRest? h.symm ht
        exact absurd (hs.symm.trans hsome) (by simp)
  · exact .inl ⟨annotationRest?_of_ne hat s, annotationRest?_of_ne hat t⟩

/-- Inside of a literal the character stays, or what looks like an annotation becomes a
space, which the literal may hold as well. -/
theorem Erased.inside_cases {raw : Bool} {c : Char} {s' : List Char} (hs : Erased (c :: s) s')
    (hc : Quiet rules raw c) (h : Alike (Quiet rules) (.inside raw) s t q) :
    ∃ d rest u, s' = d :: u ∧ Quiet rules raw d ∧ Erased rest u ∧
      Alike (Quiet rules) (.inside raw) rest t q ∧ rest.length ≤ s.length := by
  cases hsome : annotationRest? (c :: s) with
  | none =>
    obtain ⟨u, rfl, hu⟩ := hs.of_eq_none hsome
    exact ⟨c, s, u, rfl, hc, hu, h, Nat.le_refl _⟩
  | some rest =>
    obtain ⟨u, rfl, hu⟩ := hs.of_eq_some hsome
    have hat : c = '@' := by
      obtain ⟨_, _, _, heq, -⟩ := annotationRest?_eq_some hsome
      exact (List.cons.inj heq).1
    subst hat
    refine ⟨' ', rest, u, rfl, quiet_space rules raw, hu,
      alike_of_annotationRest?_inside h hsome, ?_⟩
    exact Nat.lt_succ_iff.mp (length_annotationRest? hsome)

/-- Annotations outside of literals are replaced on both sides, and what looks like one
inside of a literal by a space that the literal may hold. -/
theorem alike_erased (h : Alike (Quiet rules) p s t q) (hq : q.Closed) {s' t' : List Char}
    (hs : Erased s s') (ht : Erased t t') : ∃ q', Alike (Quiet rules) p s' t' q' ∧ q'.Closed := by
  -- An annotation is left out in one step, so the induction is on the lengths.
  generalize hn : s.length + t.length = n
  induction n using Nat.strongRecOn generalizing p s t s' t' with
  | ind n ih =>
    cases h with
    | nil =>
      rw [hs.eq_nil, ht.eq_nil]
      exact ⟨q, .nil q, hq⟩
    | @keep _ _ s t c hc h =>
      simp only [List.length_cons] at hn
      rcases annotationRest?_cases h with ⟨hnone, hnone'⟩ | ⟨rest, rest', rfl, hsome, hsome', hrest⟩
      · obtain ⟨u, rfl, hu⟩ := hs.of_eq_none hnone
        obtain ⟨v, rfl, hv⟩ := ht.of_eq_none hnone'
        obtain ⟨q', h', hq'⟩ := ih _ (by omega) h hu hv rfl
        exact ⟨q', .keep c hc h', hq'⟩
      · obtain ⟨u, rfl, hu⟩ := hs.of_eq_some hsome
        obtain ⟨v, rfl, hv⟩ := ht.of_eq_some hsome'
        have hlt := length_annotationRest? hsome
        have hlt' := length_annotationRest? hsome'
        simp only [List.length_cons] at hlt hlt'
        obtain ⟨q', h', hq'⟩ := ih _ (by omega) hrest hu hv rfl
        rw [← Stand.after_of_breaks (c := ' ') (by decide) p] at h'
        exact ⟨q', .keep_of_closed (closed_of_not_closes hc rfl) h', hq'⟩
    | @hide _ _ s _ raw c hp hc h =>
      simp only [List.length_cons] at hn
      obtain ⟨d, rest, u, rfl, hd, hu, hrest, hle⟩ := hs.inside_cases hc h
      obtain ⟨q', h', hq'⟩ := ih _ (by omega) hrest hu ht rfl
      exact ⟨q', .hide hp hd h', hq'⟩
    | @fill _ _ _ t raw c hp hc h =>
      simp only [List.length_cons] at hn
      obtain ⟨d, rest, v, rfl, hd, hv, hrest, hle⟩ := ht.inside_cases hc h.symm
      obtain ⟨q', h', hq'⟩ := ih _ (by omega) hrest.symm hs hv rfl
      exact ⟨q', .fill hp hd h', hq'⟩

theorem alike_replaceAll (h : AlikeTexts (Quiet rules) s t) :
    AlikeTexts (Quiet rules) (Pattern.replaceAll annotation [' '] s)
      (Pattern.replaceAll annotation [' '] t) := by
  obtain ⟨q, h, hq⟩ := h
  exact alike_erased h hq (erased_replaceAll s) (erased_replaceAll t)

end Parameter
end Outline
