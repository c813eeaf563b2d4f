import Mathlib.Algebra.GroupWithZero.Nat
import Outline.Proofs.Declaration.Recover
import Outline.Proofs.Declaration.TypeText
import Outline.Proofs.Extraction.Java.Clause
import Outline.Proofs.Extraction.Java.Constant

/-!
# Types in the headers of classes

A type of a header is a path of identifiers, applied to type arguments or not.  An argument may
stand behind a wildcard with a bound, and blanks may stand around all of them.  No comma and no
angle bracket of a type is left open by it, so a list of types is split where they are joined.
-/

namespace Outline
namespace Java

open Parameter (IsIdent Passes isDollarChar isIdentChar isPlainChar)

/-- Identifiers with dots between them. -/
def IsPath (text : List Char) : Prop :=
  ∃ segments, segments ≠ [] ∧ (∀ segment ∈ segments, IsIdent segment) ∧
    text = Text.join ['.'] segments

theorem isPath_of_isIdent {name : List Char} (h : IsIdent name) : IsPath name :=
  ⟨[name], List.cons_ne_nil _ _, List.forall_mem_singleton.mpr h,
    List.intercalate_singleton.symm⟩

/-- The words in front of the bound of a wildcard. -/
def boundWords : List String := ["extends", "super"]

/-- What stands in front of the type of an argument: blanks, or a wildcard and the word for its
bound. -/
inductive Bound : List Char → Prop
  | exact {gap : List Char} (blank : ∀ c ∈ gap, Text.isBlank c = true) : Bound gap
  | wildcard {gap inner behind : List Char} {word : String} (known : word ∈ boundWords)
      (blank : ∀ c ∈ gap ++ (inner ++ behind), Text.isBlank c = true) (apart : behind ≠ []) :
      Bound (gap ++ '?' :: (inner ++ (word.toList ++ behind)))

/-- A type argument: what stands in front of its type, the type, and blanks behind it. -/
structure Argument where
  bound : List Char
  type : List Char
  gap : List Char
  deriving DecidableEq, Repr

def Argument.text (argument : Argument) : List Char :=
  argument.bound ++ (argument.type ++ argument.gap)

/-- The types of headers. -/
inductive HeaderType : List Char → Prop
  | path {path : List Char} (named : IsPath path) : HeaderType path
  | applied {path gap : List Char} {arguments : List Argument} (named : IsPath path)
      (blank : ∀ c ∈ gap, Text.isBlank c = true)
      (bounds : ∀ argument ∈ arguments, Bound argument.bound)
      (types : ∀ argument ∈ arguments, HeaderType argument.type)
      (gaps : ∀ argument ∈ arguments, ∀ c ∈ argument.gap, Text.isBlank c = true) :
      HeaderType
        (path ++ (gap ++ '<' :: (Text.join [','] (arguments.map Argument.text) ++ ['>'])))

variable {text : List Char}

/-- What holds of pieces, of what stands between them, and of two texts together holds of the
pieces that are joined. -/
theorem join_of_append {P : List Char → Prop} (hnil : P [])
    (happend : ∀ a b, P a → P b → P (a ++ b)) {separator : List Char} (hseparator : P separator)
    {pieces : List (List Char)} (h : ∀ piece ∈ pieces, P piece) :
    P (Text.join separator pieces) := by
  induction pieces with
  | nil => exact hnil
  | cons piece pieces ih =>
    obtain ⟨hpiece, hpieces⟩ := List.forall_mem_cons.mp h
    cases pieces with
    | nil =>
      rw [Text.join, List.intercalate_singleton]
      exact hpiece
    | cons next pieces =>
      rw [Text.join, List.intercalate_cons_cons, ← Text.join]
      exact happend _ _ (happend _ _ hpiece hseparator) (ih hpieces)

/-- A property that types have because their parts do, and what it becomes between angle brackets,
where commas stand. -/
structure OfParts (P Q : List Char → Prop) : Prop where
  nil : P []
  append : ∀ a b, P a → P b → P (a ++ b)
  ident : ∀ word, IsIdent word → P word
  dot : P ['.']
  blanks : ∀ gap, (∀ c ∈ gap, Text.isBlank c = true) → P gap
  mark : P ['?']
  inside : ∀ a, P a → Q a
  appendInside : ∀ a b, Q a → Q b → Q (a ++ b)
  comma : Q [',']
  angled : ∀ a, Q a → P ('<' :: (a ++ ['>']))

section

variable {P Q : List Char → Prop} (h : OfParts P Q)
include h

theorem OfParts.path (hpath : IsPath text) : P text := by
  obtain ⟨segments, -, hall, rfl⟩ := hpath
  exact join_of_append h.nil h.append h.dot fun segment hs => h.ident segment (hall segment hs)

theorem OfParts.bound {bound : List Char} (hbound : Bound bound) : P bound := by
  cases hbound with
  | exact blank => exact h.blanks _ blank
  | @wildcard gap inner behind word known blank _ =>
    have hword : IsIdent word.toList := by
      have hall : ∀ word ∈ boundWords, (∃ c, word.toList.head? = some c ∧
          Parameter.isDollarStart c = true) ∧ ∀ c ∈ word.toList, isIdentChar c = true := by
        simp only [boundWords, List.forall_mem_cons]
        exact ⟨⟨⟨'e', rfl, rfl⟩, by decide⟩, ⟨⟨'s', rfl, rfl⟩, by decide⟩, nofun⟩
      exact ⟨(hall word known).1, (hall word known).2⟩
    obtain ⟨hgap, hblank⟩ := List.forall_mem_append.mp blank
    obtain ⟨hinner, hbehind⟩ := List.forall_mem_append.mp hblank
    have hbehind := h.append _ _ (h.ident _ hword) (h.blanks _ hbehind)
    have hmark := h.append _ _ h.mark (h.append _ _ (h.blanks _ hinner) hbehind)
    exact h.append _ _ (h.blanks _ hgap) hmark

theorem OfParts.type (ht : HeaderType text) : P text := by
  induction ht with
  | path named => exact h.path named
  | @applied path gap arguments named blank bounds types gaps ih =>
    have hargument : ∀ piece ∈ arguments.map Argument.text, Q piece := by
      intro piece hp
      obtain ⟨argument, ha, rfl⟩ := List.mem_map.mp hp
      have hgap := h.blanks _ (gaps argument ha)
      exact h.inside _ (h.append _ _ (h.bound (bounds argument ha))
        (h.append _ _ (ih argument ha) hgap))
    have hlist := join_of_append (h.inside _ h.nil) h.appendInside h.comma hargument
    exact h.append _ _ (h.path named) (h.append _ _ (h.blanks _ blank) (h.angled _ hlist))

end

/-! ## Characters -/

/-- A character of a name or of a type in a header. -/
def isHeaderChar (c : Char) : Bool :=
  isDollarChar c || Text.isBlank c || ['.', '?', ',', '<', '>'].contains c

theorem isHeaderChar_of_isDollarChar {c : Char} (h : isDollarChar c = true) :
    isHeaderChar c = true := by simp [isHeaderChar, h]

theorem isHeaderChar_of_isBlank {c : Char} (h : Text.isBlank c = true) :
    isHeaderChar c = true := by simp [isHeaderChar, h]

theorem HeaderType.isHeaderChar (h : HeaderType text) : ∀ c ∈ text, Java.isHeaderChar c = true := by
  let P : List Char → Prop := fun text => ∀ c ∈ text, Java.isHeaderChar c = true
  have happend : ∀ a b, P a → P b → P (a ++ b) := fun a b ha hb =>
    List.forall_mem_append.mpr ⟨ha, hb⟩
  have hparts : OfParts P P :=
    { nil := nofun
      append := happend
      ident := fun word hword c hc => isHeaderChar_of_isDollarChar
        (isDollarChar_of_isIdentChar (hword.all c hc))
      dot := by decide
      blanks := fun gap hgap c hc => isHeaderChar_of_isBlank (hgap c hc)
      mark := by decide
      inside := fun _ ha => ha
      appendInside := happend
      comma := by decide
      angled := fun a ha => happend ['<'] _ (by decide) (happend _ _ ha (by decide)) }
  exact hparts.type h

/-! ## Groups -/

theorem isPlainChar_of_isBlank {c : Char} (h : Text.isBlank c = true) : isPlainChar c = true := by
  have hall : ∀ c ∈ ['(', ')', '[', ']', '\x7b', '\x7d', '<', '>', ',', '-'],
      Text.isBlank c = false := by decide
  rw [isPlainChar, Bool.not_eq_true', List.contains_eq_mem, decide_eq_false_iff_not]
  intro hmem
  rw [hall c hmem] at h
  cases h

theorem passes_of_blanks (h : ∀ c ∈ text, Text.isBlank c = true) : Passes 0 text :=
  Parameter.passes_of_plain fun c hc => isPlainChar_of_isBlank (h c hc)

theorem HeaderType.passes (h : HeaderType text) : Passes 0 text := by
  have hparts : OfParts (Passes 0) (Passes 1) :=
    { nil := Parameter.passes_nil 0
      append := fun _ _ => Passes.append
      ident := fun word hword => Parameter.passes_of_plain fun c hc =>
        Parameter.isPlainChar_of_isIdentChar (hword.all c hc)
      dot := Parameter.passes_of_plain (by decide)
      blanks := fun _ hgap => passes_of_blanks hgap
      mark := Parameter.passes_of_plain (by decide)
      inside := fun _ ha => ha.mono (Nat.zero_le 1)
      appendInside := fun _ _ => Passes.append
      comma := Parameter.passes_comma
      angled := fun _ => Passes.angled }
  exact hparts.type h

/-! ## The first character -/

theorem IsPath.exists_cons (h : IsPath text) : ∃ c rest, text = c :: rest ∧ isIdentChar c = true := by
  obtain ⟨segments, hne, hall, rfl⟩ := h
  obtain ⟨first, more, rfl⟩ := List.exists_cons_of_ne_nil hne
  have hident := hall first List.mem_cons_self
  obtain ⟨c, rest, rfl, -⟩ := hident.exists_cons
  have hc := hident.all c List.mem_cons_self
  cases more with
  | nil => exact ⟨c, rest, by rw [Text.join, List.intercalate_singleton], hc⟩
  | cons next more =>
    refine ⟨c, rest ++ (['.'] ++ Text.join ['.'] (next :: more)), ?_, hc⟩
    rw [Text.join, List.intercalate_cons_cons, List.append_assoc]
    rfl

/-- A type starts with a character that is not blank. -/
theorem HeaderType.head (h : HeaderType text) :
    ∃ c rest, text = c :: rest ∧ Text.isBlank c = false := by
  cases h with
  | path named =>
    obtain ⟨c, rest, rfl, hc⟩ := named.exists_cons
    exact ⟨c, rest, rfl, Parameter.isBlank_of_isIdentChar hc⟩
  | applied named =>
    obtain ⟨c, rest, rfl, hc⟩ := named.exists_cons
    exact ⟨c, _, List.cons_append, Parameter.isBlank_of_isIdentChar hc⟩

end Java
end Outline

/-!
## The clauses of a header

A header names the class it extends and the interfaces it implements.  Its clauses are told by
their words alone, so a wildcard that is bounded from above starts one more clause inside of a
type.  What is read back then falls short of what was written: each word that starts a clause
takes more characters than the clause can give back.
-/

namespace Outline
namespace Java

/-! ### Characters that are not blank -/

/-- How many characters of a text are not blank. -/
def ink (text : List Char) : Nat := text.countP (!Text.isBlank ·)

/-- The same for some texts, and one more for each. -/
def load (texts : List (List Char)) : Nat := (texts.map fun text => ink text + 1).sum

theorem ink_append (a b : List Char) : ink (a ++ b) = ink a + ink b := List.countP_append

theorem load_cons (text : List Char) (texts : List (List Char)) :
    load (text :: texts) = ink text + 1 + load texts := by
  rw [load, List.map_cons, List.sum_cons, load]

theorem load_append (a b : List (List Char)) : load (a ++ b) = load a + load b := by
  rw [load, List.map_append, List.sum_append, load, load]

theorem ink_squeeze (gap : Text.Gap) (text : List Char) : ink (Text.squeeze gap text) = ink text := by
  induction text generalizing gap with
  | nil => rfl
  | cons c text ih =>
    have hgap : ∀ gap : Text.Gap, ink gap.text = 0 := by
      intro gap
      cases gap <;> rfl
    rw [Text.squeeze]
    split
    · next hc => rw [ih, ink, ink, List.countP_cons_of_neg (by simp [hc])]
    · next hc =>
      rw [ink_append, hgap, Nat.zero_add, ink, List.countP_cons_of_pos (by simpa using hc), ← ink, ih,
        ink, ink, List.countP_cons_of_pos (by simpa using hc)]

theorem ink_normalizeSpace (text : List Char) : ink (Text.normalizeSpace text) = ink text := by
  rw [Text.normalizeSpace_eq_squeeze, ink_squeeze]

theorem load_map_normalizeSpace (texts : List (List Char)) :
    load (texts.map Text.normalizeSpace) = load texts := by
  rw [load, List.map_map, load]
  exact congrArg List.sum (List.map_congr_left fun text _ => congrArg (· + 1) (ink_normalizeSpace text))

/-- Joined texts lack the one more of the last of them. -/
theorem ink_join {separator : List Char} (hs : ink separator = 1) {texts : List (List Char)}
    (hne : texts ≠ []) : ink (Text.join separator texts) + 1 = load texts := by
  induction texts with
  | nil => exact absurd rfl hne
  | cons text texts ih =>
    cases texts with
    | nil =>
      rw [Text.join, List.intercalate_singleton]
      rfl
    | cons next texts =>
      rw [Text.join, List.intercalate_cons_cons, ← Text.join, ink_append, ink_append, hs,
        Nat.add_assoc, ih (List.cons_ne_nil _ _), load_cons text]

theorem load_filter_le (keep : List Char → Bool) (texts : List (List Char)) :
    load (texts.filter keep) ≤ load texts := by
  induction texts with
  | nil => exact Nat.le_refl _
  | cons text texts ih =>
    rw [List.filter_cons]
    split
    · rw [load_cons, load_cons]
      omega
    · rw [load_cons]
      omega

/-- A clause names no more than stands behind its word. -/
theorem load_clauseTypes_le (trail : List Char) : load (clauseTypes trail) ≤ ink trail + 1 := by
  have hcomma : ink [','] = 1 := rfl
  have hpieces : load (splitTopLevel ',' trail) = ink trail + 1 := by
    have hne : splitTopLevel ',' trail ≠ [] := splitTopLevelFrom_ne_nil ',' .outside [] trail
    rw [← ink_join hcomma hne, join_splitTopLevel]
  calc load (clauseTypes trail) ≤ load ((splitTopLevel ',' trail).map Text.normalizeSpace) :=
        load_filter_le _ _
    _ = ink trail + 1 := by rw [load_map_normalizeSpace, hpieces]

/-- Each word that starts a clause costs more than the clause names. -/
theorem load_cuts_le {cuts : List (String × List Char)} (h : ∀ cut ∈ cuts, cut.1 ∈ clauseWords) :
    (cuts.map fun cut => load (clauseTypes cut.2)).sum + 6 * cuts.length ≤ ink (cutText cuts) := by
  induction cuts with
  | nil => exact Nat.le_refl _
  | cons cut cuts ih =>
    obtain ⟨word, trail⟩ := cut
    obtain ⟨hword, hcuts⟩ := List.forall_mem_cons.mp h
    have hink : ∀ word ∈ clauseWords, 7 ≤ ink word.toList := by decide
    have hcost := hink word hword
    have htypes := load_clauseTypes_le trail
    have hmore := ih hcuts
    rw [List.map_cons, List.sum_cons, List.length_cons, cutText_cons, ink_append, ink_append]
    show load (clauseTypes trail) + _ + _ ≤ _
    omega

/-! ### What is read of a header -/

/-- The texts of a base and of interfaces. -/
def supertypeTexts (base : Option String) (interfaces : List String) : List (List Char) :=
  (base.toList ++ interfaces).map String.toList

theorem map_toList_ofList (texts : List (List Char)) :
    (texts.map String.ofList).map String.toList = texts := by
  rw [List.map_map]
  exact (List.map_congr_left fun text _ => String.toList_ofList).trans (List.map_id texts)

/-- What one clause adds to the supertypes. -/
def addClause (kind : ClassKind) (found : Option String × List String)
    (clause : List Char × List (List Char)) : Option String × List String :=
  let types := clause.2.map String.ofList
  if clause.1 = "implements".toList ∨ (clause.1 = "extends".toList ∧ kind = .interface) then
    (found.1, found.2 ++ types)
  else if clause.1 = "extends".toList then (types.head?, found.2)
  else found

theorem addClause_extends (found : Option String × List String) (types : List (List Char)) :
    addClause .ordinary found ("extends".toList, types) =
      ((types.map String.ofList).head?, found.2) := rfl

theorem addClause_implements (found : Option String × List String) (types : List (List Char)) :
    addClause .ordinary found ("implements".toList, types) =
      (found.1, found.2 ++ types.map String.ofList) := rfl

theorem supertypes_eq {kind : ClassKind} {header : List Char}
    {parts : List (List Char × List (List Char))} (h : clauses header = .ok parts) :
    supertypes kind header = .ok (parts.foldl (addClause kind) (none, [])) := by
  rw [supertypes, h]
  rfl

theorem load_addClause_le (kind : ClassKind) (found : Option String × List String)
    (clause : List Char × List (List Char)) :
    load (supertypeTexts (addClause kind found clause).1 (addClause kind found clause).2) ≤
      load (supertypeTexts found.1 found.2) + load clause.2 := by
  rw [addClause]
  split
  · rw [supertypeTexts, ← List.append_assoc, List.map_append, load_append, map_toList_ofList]
    exact Nat.le_refl _
  · split
    · -- Only the first type is kept, in the place of the base found before.
      have hhead : load (((clause.2.map String.ofList).head?.toList).map String.toList) ≤
          load clause.2 := by
        cases clause.2 with
        | nil => exact Nat.le_refl _
        | cons type types =>
          rw [load_cons]
          show load [(String.ofList type).toList] ≤ _
          rw [String.toList_ofList, load_cons]
          exact Nat.add_le_add_left (Nat.zero_le _) _
      rw [supertypeTexts, supertypeTexts, List.map_append, List.map_append, load_append, load_append]
      dsimp only
      omega
    · exact Nat.le_add_right _ _

theorem load_clauses_le (kind : ClassKind) (parts : List (List Char × List (List Char)))
    (found : Option String × List String) :
    load (supertypeTexts (parts.foldl (addClause kind) found).1
      (parts.foldl (addClause kind) found).2) ≤
        load (supertypeTexts found.1 found.2) + (parts.map fun part => load part.2).sum := by
  induction parts generalizing found with
  | nil => exact Nat.le_refl _
  | cons part parts ih =>
    have hone := load_addClause_le kind found part
    have hmore := ih (addClause kind found part)
    rw [List.foldl_cons, List.map_cons, List.sum_cons]
    omega

/-- What is read of a header, together with the words that start its clauses, is no more than
stands in it. -/
theorem supertypes_load (kind : ClassKind) (header : List Char) :
    ∃ base interfaces, supertypes kind header = .ok (base, interfaces) ∧
      load (supertypeTexts base interfaces) + 6 * (clauseWordsFrom none 0 header).length ≤
        ink header := by
  obtain ⟨lead, cuts, hsplit, hplaces, hwords⟩ := exists_cuts none 0 header
  rw [Nat.zero_add] at hplaces
  have hlength : ∀ offset, (placesFrom offset cuts).length = cuts.length := by
    clear hsplit hplaces hwords
    induction cuts with
    | nil => exact fun _ => rfl
    | cons cut cuts ih => exact fun offset => congrArg (· + 1) (ih _)
  refine ⟨_, _, supertypes_eq (clauses_of_cuts hsplit hplaces), ?_⟩
  have hread := load_clauses_le kind (cuts.map fun cut => (cut.1.toList, clauseTypes cut.2)) (none, [])
  rw [List.map_map] at hread
  calc _ ≤ load (supertypeTexts none []) + (cuts.map fun cut => load (clauseTypes cut.2)).sum
          + 6 * cuts.length := by
        rw [hplaces, hlength]
        exact Nat.add_le_add_right hread _
    _ = (cuts.map fun cut => load (clauseTypes cut.2)).sum + 6 * cuts.length :=
        congrArg (· + _) (Nat.zero_add _)
    _ ≤ ink (cutText cuts) := load_cuts_le hwords
    _ ≤ ink header := by
        rw [hsplit, ink_append]
        exact Nat.le_add_left _ _

/-! ### A header with a base and interfaces -/

/-- What stands behind the words of a header with a base and interfaces. -/
def headerCuts (base : List Char) (interfaces : List (List Char)) : List (String × List Char) :=
  [("extends", ' ' :: (base ++ [' '])),
    ("implements", ' ' :: (Text.join [',', ' '] interfaces ++ [' ']))]

/-- The header, up to the brace of the class. -/
def headerOf (base : List Char) (interfaces : List (List Char)) : List Char :=
  "extends".toList ++ ' ' :: (base ++ ' ' :: ("implements".toList ++
    ' ' :: (Text.join [',', ' '] interfaces ++ [' '])))

theorem headerOf_eq (base : List Char) (interfaces : List (List Char)) :
    headerOf base interfaces = "extends".toList ++ ' ' :: (base ++ ' ' :: ("implements".toList ++
      ' ' :: (Text.join [',', ' '] interfaces ++ [' ']))) := rfl

variable {base : List Char} {interfaces : List (List Char)}

theorem headerOf_eq_cutText (base : List Char) (interfaces : List (List Char)) :
    headerOf base interfaces = cutText (headerCuts base interfaces) := by
  rw [headerOf_eq, headerCuts, cutText_cons, cutText_cons, cutText, List.flatMap_nil,
    List.append_nil]
  simp only [List.append_assoc, List.cons_append, List.nil_append]

/-- The words of the two clauses, and those that stand in the types. -/
theorem clauseWordsFrom_header (base : List Char) (interfaces : List (List Char)) :
    ∃ offset, clauseWordsFrom none 0 (headerOf base interfaces) =
      ⟨0, "extends".toList⟩ :: (clauseWordsFrom none 8 base ++
        ⟨8 + Text.width base + 1, "implements".toList⟩ ::
          clauseWordsFrom none offset (Text.join [',', ' '] interfaces)) := by
  have hextends : clauseWordsFrom none 0 "extends".toList = [⟨0, "extends".toList⟩] :=
    clauseWordsFrom_word (by decide) 0
  have himplements : ∀ offset, clauseWordsFrom none offset "implements".toList =
      [⟨offset, "implements".toList⟩] := clauseWordsFrom_word (by decide)
  have hspace : Text.isWordChar ' ' = false := rfl
  refine ⟨8 + Text.width base + 1 + 10 + 1, ?_⟩
  rw [headerOf_eq, clauseWordsFrom_append_cons hspace, hextends,
    clauseWordsFrom_append_cons hspace, clauseWordsFrom_append_cons hspace, himplements,
    clauseWordsFrom_append_cons hspace, clauseWordsFrom, List.append_nil]
  rfl

theorem normalizeSpace_cons_space (text : List Char) :
    Text.normalizeSpace (' ' :: text) = Text.normalizeSpace text := by
  rw [Text.normalizeSpace, Text.words_cons_blank rfl, Text.normalizeSpace]

theorem normalizeSpace_concat_space (text : List Char) :
    Text.normalizeSpace (text ++ [' ']) = Text.normalizeSpace text := by
  have hwords : ∀ word, Text.wordsFrom word (text ++ [' ']) = Text.wordsFrom word text := by
    induction text with
    | nil =>
      intro word
      cases word <;> rfl
    | cons c text ih =>
      intro word
      rw [List.cons_append, Text.wordsFrom, Text.wordsFrom, ih, ih]
  rw [Text.normalizeSpace, Text.words, hwords, ← Text.words, Text.normalizeSpace]

/-- A space behind a list changes no type of it. -/
theorem map_splitTopLevel_concat_space (text : List Char) :
    (splitTopLevel ',' (text ++ [' '])).map Text.normalizeSpace =
      (splitTopLevel ',' text).map Text.normalizeSpace := by
  suffices hall : ∀ nesting piece, (splitTopLevelFrom ',' nesting piece (text ++ [' '])).map
      Text.normalizeSpace = (splitTopLevelFrom ',' nesting piece text).map Text.normalizeSpace from
    hall .outside []
  induction text with
  | nil =>
    intro nesting piece
    have hspace : splitTopLevelFrom ',' nesting piece [' '] = [piece.reverse ++ [' ']] := by
      rw [splitTopLevelFrom, if_neg (by simp [Nesting.splits]), splitTopLevelFrom, List.reverse_cons]
    rw [List.nil_append, hspace, splitTopLevelFrom, List.map_singleton, List.map_singleton,
      normalizeSpace_concat_space]
  | cons c text ih =>
    intro nesting piece
    rw [List.cons_append, splitTopLevelFrom, splitTopLevelFrom]
    split
    · rw [List.map_cons, List.map_cons, ih]
    · exact ih _ _

theorem ink_cons_space (text : List Char) : ink (' ' :: text) = ink text := rfl

theorem ink_header (base : List Char) (interfaces : List (List Char)) :
    ink (headerOf base interfaces) = 17 + ink base + ink (Text.join [',', ' '] interfaces) := by
  rw [headerOf_eq, ink_append, ink_cons_space, ink_append, ink_cons_space, ink_append,
    ink_cons_space, ink_append]
  show 7 + (ink base + (10 + (ink (Text.join [',', ' '] interfaces) + 0))) = _
  omega

/-- The types behind a word, with spaces around them, are read as they are joined. -/
theorem clauseTypes_spaced (hne : interfaces ≠ []) (h : ∀ type ∈ interfaces, HeaderType type) :
    clauseTypes (' ' :: (Text.join [',', ' '] interfaces ++ [' '])) =
      interfaces.map Text.normalizeSpace := by
  obtain ⟨first, more, rfl⟩ := List.exists_cons_of_ne_nil hne
  have hpasses : ∀ type ∈ (' ' :: first) :: more, Parameter.Passes 0 type := by
    obtain ⟨hfirst, hmore⟩ := List.forall_mem_cons.mp h
    have hspace : Parameter.Passes 0 [' '] := Parameter.passes_of_plain (by decide)
    exact List.forall_mem_cons.mpr ⟨hspace.append hfirst.passes, fun type ht => (hmore type ht).passes⟩
  have hlead : ' ' :: Text.join [',', ' '] (first :: more) =
      Text.join [',', ' '] ((' ' :: first) :: more) := by
    rw [Parameter.join_comma_cons, Parameter.join_comma_cons, List.cons_append]
  have hspaces : ((' ' :: first) :: more.map (' ' :: ·)).map Text.normalizeSpace =
      (first :: more).map Text.normalizeSpace := by
    rw [List.map_cons, List.map_cons, normalizeSpace_cons_space, List.map_map]
    exact congrArg _ (List.map_congr_left fun type _ => normalizeSpace_cons_space type)
  rw [clauseTypes, ← List.cons_append, map_splitTopLevel_concat_space, hlead,
    Parameter.splitTopLevel_join hpasses, hspaces]
  refine List.filter_eq_self.mpr fun text ht => ?_
  obtain ⟨type, htype, rfl⟩ := List.mem_map.mp ht
  obtain ⟨c, rest, rfl, hc⟩ := (h type htype).head
  have hink : ink (Text.normalizeSpace (c :: rest)) = ink rest + 1 := by
    rw [ink_normalizeSpace, ink, List.countP_cons_of_pos (by simp [hc]), ink]
  cases hnormal : Text.normalizeSpace (c :: rest) with
  | nil =>
    rw [hnormal] at hink
    cases hink
  | cons _ _ => rfl

/-- What the header of a class should be read as. -/
def writtenTypes (base : List Char) (interfaces : List (List Char)) : Option String × List String :=
  (some (String.ofList (Text.normalizeSpace base)),
    (interfaces.map Text.normalizeSpace).map String.ofList)

theorem supertypeTexts_written (base : List Char) (interfaces : List (List Char)) :
    supertypeTexts (writtenTypes base interfaces).1 (writtenTypes base interfaces).2 =
      (base :: interfaces).map Text.normalizeSpace := by
  rw [← map_toList_ofList ((base :: interfaces).map Text.normalizeSpace)]
  rfl

theorem supertypes_of_clauseless (hb : HeaderType base) (hne : interfaces ≠ [])
    (hi : ∀ type ∈ interfaces, HeaderType type)
    (h : ∀ type ∈ base :: interfaces, Clauseless type) :
    supertypes .ordinary (headerOf base interfaces) = .ok (writtenTypes base interfaces) := by
  obtain ⟨hbase, hinterfaces⟩ := List.forall_mem_cons.mp h
  obtain ⟨offset, hwords⟩ := clauseWordsFrom_header base interfaces
  rw [clauseWordsFrom_eq_nil.mpr hbase, clauseWordsFrom_eq_nil.mpr (clauseless_join.mpr hinterfaces)]
    at hwords
  have hplaces : clauseWordsFrom none 0 (headerOf base interfaces) =
      placesFrom (Text.width []) (headerCuts base interfaces) := by
    have hwidth : Text.width ("extends".toList ++ ' ' :: (base ++ [' '])) =
        8 + Text.width base + 1 := by
      rw [Text.width_append, Text.width_cons, Text.width_append]
      show 7 + (1 + (Text.width base + 1)) = _
      omega
    rw [hwords, headerCuts, placesFrom, placesFrom, hwidth, Text.width_nil, Nat.zero_add]
    rfl
  have hone : clauseTypes (' ' :: (base ++ [' '])) = [base].map Text.normalizeSpace := by
    have htypes := clauseTypes_spaced (List.cons_ne_nil base []) (List.forall_mem_singleton.mpr hb)
    rwa [Text.join, List.intercalate_singleton] at htypes
  rw [supertypes_eq (clauses_of_cuts (headerOf_eq_cutText base interfaces) hplaces), headerCuts,
    List.map_cons, List.map_singleton, hone, clauseTypes_spaced hne hi, List.foldl_cons,
    addClause_extends, List.foldl_cons, addClause_implements, List.foldl_nil]
  rfl

/-- A header is read as it is written if and only if no word that starts a clause stands in one of
its types. -/
theorem supertypes_header (hb : HeaderType base) (hne : interfaces ≠ [])
    (hi : ∀ type ∈ interfaces, HeaderType type) :
    ∃ found, supertypes .ordinary (headerOf base interfaces) = .ok found ∧
      (found = writtenTypes base interfaces ↔ ∀ type ∈ base :: interfaces, Clauseless type) := by
  obtain ⟨base', interfaces', hread, hload⟩ := supertypes_load .ordinary (headerOf base interfaces)
  refine ⟨_, hread, fun heq => ?_, fun h => ?_⟩
  · obtain ⟨offset, hwords⟩ := clauseWordsFrom_header base interfaces
    have hwritten : load (supertypeTexts base' interfaces') = ink base + 1 + load interfaces := by
      obtain ⟨rfl, rfl⟩ := Prod.mk.inj heq
      exact (congrArg load (supertypeTexts_written base interfaces)).trans
        ((load_map_normalizeSpace _).trans (load_cons base interfaces))
    have hjoin : ink (Text.join [',', ' '] interfaces) + 1 = load interfaces := ink_join rfl hne
    rw [hwritten, hwords, ink_header, List.length_cons, List.length_append, List.length_cons] at hload
    have hbase : clauseWordsFrom none 8 base = [] := List.eq_nil_of_length_eq_zero (by omega)
    have hlist : clauseWordsFrom none offset (Text.join [',', ' '] interfaces) = [] :=
      List.eq_nil_of_length_eq_zero (by omega)
    exact List.forall_mem_cons.mpr ⟨clauseWordsFrom_eq_nil.mp hbase,
      clauseless_join.mp (clauseWordsFrom_eq_nil.mp hlist)⟩
  · rw [supertypes_of_clauseless hb hne hi h] at hread
    exact (Except.ok.inj hread).symm

end Java
end Outline
