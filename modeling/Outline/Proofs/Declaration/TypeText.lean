import Outline.Proofs.Declaration.NamePattern
import Outline.Proofs.Declaration.Parameter

/-!
# Types as declarations spell them

A type is a word, applied to other types in angle brackets or not, with marks of arrays,
pointers and references behind it.  All its commas stand inside of its brackets and all its
blanks behind its commas, so that neither splits it.
-/

namespace Outline
namespace Parameter

/-- A character of an identifier in ASCII. -/
def isIdentChar (c : Char) : Bool := c.isAlphanum || c == '_' || c == '$'

/-- An identifier in ASCII. -/
abbrev IsIdent (word : List Char) : Prop := NameOf isDollarStart isIdentChar word

/-- The marks that may stand behind a type. -/
def typeMarks : List (List Char) := [['[', ']'], ['*'], ['&']]

/-- The texts of types.  The word in front is none of the modifiers. -/
inductive TypeText (modifiers : List String) : List Char → Prop
  | plain {word : List Char} {marks : List (List Char)} (ident : IsIdent word)
      (free : oneOfWords modifiers word = false) (marked : ∀ mark ∈ marks, mark ∈ typeMarks) :
      TypeText modifiers (word ++ marks.flatten)
  | applied {word : List Char} {arguments marks : List (List Char)} (ident : IsIdent word)
      (free : oneOfWords modifiers word = false)
      (types : ∀ argument ∈ arguments, TypeText modifiers argument)
      (marked : ∀ mark ∈ marks, mark ∈ typeMarks) :
      TypeText modifiers
        (word ++ '<' :: (Text.join [',', ' '] arguments ++ '>' :: marks.flatten))

variable {modifiers : List String} {text a b : List Char}

theorem join_comma_cons (piece : List Char) (pieces : List (List Char)) :
    Text.join [',', ' '] (piece :: pieces) =
      piece ++ pieces.flatMap fun next => [',', ' '] ++ next := by
  induction pieces generalizing piece with
  | nil => simp [Text.join]
  | cons next pieces ih =>
    rw [Text.join, List.intercalate_cons_cons, ← Text.join, ih, List.flatMap_cons,
      List.append_assoc, List.append_assoc]

/-- What holds of pieces, also behind a comma, and of two texts together holds of pieces that
commas join. -/
theorem join_comma_of_append {P : List Char → Prop} (hnil : P [])
    (happend : ∀ a b, P a → P b → P (a ++ b)) {pieces : List (List Char)}
    (h : ∀ piece ∈ pieces, P piece) (hcomma : ∀ piece ∈ pieces, P ([',', ' '] ++ piece)) :
    P (Text.join [',', ' '] pieces) := by
  cases pieces with
  | nil => exact hnil
  | cons piece pieces =>
    rw [join_comma_cons]
    refine happend _ _ (h piece (by simp)) ?_
    have hmore : ∀ next ∈ pieces, P ([',', ' '] ++ next) := fun next hn => hcomma next (by simp [hn])
    clear h hcomma
    induction pieces with
    | nil => exact hnil
    | cons next pieces ih =>
      rw [List.flatMap_cons]
      exact happend _ _ (hmore next (by simp)) (ih fun next hn => hmore next (by simp [hn]))

/-! ## Characters -/

/-- A character that occurs in types. -/
def isTypeChar (c : Char) : Bool :=
  isIdentChar c || ['<', '>', '[', ']', '*', '&', ',', ' '].contains c

theorem isTypeChar_of_isIdentChar {c : Char} (h : isIdentChar c = true) : isTypeChar c = true :=
  Bool.or_eq_true_iff.mpr (.inl h)

theorem mem_flatten_marks {marks : List (List Char)} (h : ∀ mark ∈ marks, mark ∈ typeMarks)
    {c : Char} (hc : c ∈ marks.flatten) : c ∈ ['[', ']', '*', '&'] := by
  obtain ⟨mark, hmark, hc⟩ := List.mem_flatten.mp hc
  have hall : ∀ mark ∈ typeMarks, ∀ c ∈ mark, c ∈ ['[', ']', '*', '&'] := by decide
  exact hall mark (h mark hmark) c hc

theorem isTypeChar_of_mem_marks {marks : List (List Char)}
    (h : ∀ mark ∈ marks, mark ∈ typeMarks) {c : Char} (hc : c ∈ marks.flatten) :
    isTypeChar c = true := by
  have hall : ∀ c ∈ ['[', ']', '*', '&'], isTypeChar c = true := by decide
  exact hall c (mem_flatten_marks h hc)

theorem mem_join_comma {pieces : List (List Char)} {P : Char → Prop}
    (h : ∀ piece ∈ pieces, ∀ c ∈ piece, P c) (hcomma : P ',') (hspace : P ' ') :
    ∀ c ∈ Text.join [',', ' '] pieces, P c := by
  refine join_comma_of_append (P := fun text => ∀ c ∈ text, P c) (by simp) ?_ h ?_
  · exact fun a b ha hb => List.forall_mem_append.mpr ⟨ha, hb⟩
  · intro piece hp
    simpa using ⟨hcomma, hspace, h piece hp⟩

theorem TypeText.isTypeChar (h : TypeText modifiers text) :
    ∀ c ∈ text, Parameter.isTypeChar c = true := by
  induction h with
  | plain ident free marked =>
    intro c hc
    rcases List.mem_append.mp hc with hc | hc
    · exact isTypeChar_of_isIdentChar (ident.all c hc)
    · exact isTypeChar_of_mem_marks marked hc
  | applied ident free types marked ih =>
    intro c hc
    simp only [List.mem_append, List.mem_cons] at hc
    rcases hc with hc | rfl | hc | rfl | hc
    · exact isTypeChar_of_isIdentChar (ident.all c hc)
    · rfl
    · exact mem_join_comma ih rfl rfl c hc
    · rfl
    · exact isTypeChar_of_mem_marks marked hc

/-- A character that a type may end with. -/
def endsType (c : Char) : Bool := isIdentChar c || ['>', ']', '*', '&'].contains c

theorem isBlank_of_endsType {c : Char} (h : endsType c = true) : Text.isBlank c = false := by
  refine Bool.eq_false_iff.mpr fun hblank => ?_
  have hall : ∀ n ∈ Text.blankCodes, endsType (Char.ofNat n) = false := by decide +kernel
  have hnot := hall c.toNat (Text.toNat_mem_of_isBlank hblank)
  rw [Char.ofNat_toNat, h] at hnot
  exact Bool.false_ne_true hnot.symm

theorem isBlank_of_isIdentChar {c : Char} (h : isIdentChar c = true) : Text.isBlank c = false :=
  isBlank_of_endsType (Bool.or_eq_true_iff.mpr (.inl h))

theorem isBlank_of_mem_marks {marks : List (List Char)} (h : ∀ mark ∈ marks, mark ∈ typeMarks)
    {c : Char} (hc : c ∈ marks.flatten) : Text.isBlank c = false := by
  have hall : ∀ c ∈ ['[', ']', '*', '&'], Text.isBlank c = false := by decide
  exact hall c (mem_flatten_marks h hc)

/-! ## Both ends -/

/-- A type starts with its word, and what follows is no part of one. -/
theorem TypeText.starts (h : TypeText modifiers text) :
    ∃ word more, text = word ++ more ∧ IsIdent word ∧ oneOfWords modifiers word = false ∧
      ∀ c, more.head? = some c → isIdentChar c = false := by
  cases h with
  | @plain word marks ident free marked =>
    refine ⟨word, marks.flatten, rfl, ident, free, fun c hc => ?_⟩
    have hall : ∀ c ∈ ['[', ']', '*', '&'], isIdentChar c = false := by decide
    exact hall c (mem_flatten_marks marked (List.mem_of_head? hc))
  | applied ident free types marked =>
    refine ⟨_, _, rfl, ident, free, fun c hc => ?_⟩
    obtain rfl : '<' = c := by simpa using hc
    rfl

theorem IsIdent.exists_cons {word : List Char} (h : IsIdent word) :
    ∃ c rest, word = c :: rest ∧ isDollarStart c = true := by
  obtain ⟨⟨c, hc, hfirst⟩, -⟩ := h
  cases word with
  | nil => exact nomatch hc
  | cons a rest =>
    obtain rfl : a = c := Option.some.inj hc
    exact ⟨a, rest, rfl, hfirst⟩

theorem TypeText.head (h : TypeText modifiers text) :
    ∃ c rest, text = c :: rest ∧ Text.isBlank c = false := by
  obtain ⟨word, more, rfl, ident, -⟩ := h.starts
  obtain ⟨c, rest, rfl, -⟩ := ident.exists_cons
  exact ⟨c, rest ++ more, rfl, isBlank_of_isIdentChar (ident.all c (by simp))⟩

theorem endsType_of_append_marks {marks : List (List Char)} {lead : List Char}
    (h : ∀ mark ∈ marks, mark ∈ typeMarks)
    (hlead : ∃ c, lead.getLast? = some c ∧ endsType c = true) :
    ∃ c, (lead ++ marks.flatten).getLast? = some c ∧ endsType c = true := by
  rcases List.eq_nil_or_concat marks with rfl | ⟨init, last, rfl⟩
  · simpa using hlead
  · have hlast : last ∈ typeMarks := h last (by simp)
    have hall : ∀ mark ∈ typeMarks, ∃ init c, mark = init ++ [c] ∧ endsType c = true := by
      intro mark hmark
      simp only [typeMarks, List.mem_cons, List.not_mem_nil, or_false] at hmark
      rcases hmark with rfl | rfl | rfl
      · exact ⟨['['], ']', rfl, rfl⟩
      · exact ⟨[], '*', rfl, rfl⟩
      · exact ⟨[], '&', rfl, rfl⟩
    obtain ⟨front, c, rfl, hc⟩ := hall last hlast
    refine ⟨c, ?_, hc⟩
    rw [List.concat_eq_append, List.flatten_append, List.flatten_singleton, ← List.append_assoc,
      ← List.append_assoc, List.getLast?_concat]

theorem TypeText.last (h : TypeText modifiers text) :
    ∃ c, text.getLast? = some c ∧ endsType c = true := by
  cases h with
  | @plain word marks ident free marked =>
    refine endsType_of_append_marks marked ?_
    obtain ⟨a, rest, rfl, -⟩ := ident.exists_cons
    cases hlast : (a :: rest).getLast? with
    | none => simp at hlast
    | some c =>
      exact ⟨c, rfl, Bool.or_eq_true_iff.mpr (.inl (ident.all c (List.mem_of_getLast? hlast)))⟩
  | @applied word arguments marks ident free types marked =>
    have hlead : word ++ '<' :: (Text.join [',', ' '] arguments ++ '>' :: marks.flatten) =
        (word ++ '<' :: Text.join [',', ' '] arguments ++ ['>']) ++ marks.flatten := by simp
    rw [hlead]
    exact endsType_of_append_marks marked ⟨'>', List.getLast?_concat, rfl⟩

/-! ## Blanks -/

/-- Every blank of a text is a space between a comma and a character that is no blank. -/
def Tidy (text : List Char) : Prop :=
  ∀ before c after, text = before ++ c :: after → Text.isBlank c = true →
    c = ' ' ∧ before.getLast? = some ',' ∧ ∃ d, after.head? = some d ∧ Text.isBlank d = false

theorem tidy_of_not_blank (h : ∀ c ∈ text, Text.isBlank c = false) : Tidy text := by
  rintro before c after rfl hc
  rw [h c (by simp)] at hc
  exact absurd hc Bool.false_ne_true

theorem Tidy.append (ha : Tidy a) (hb : Tidy b) : Tidy (a ++ b) := by
  intro before c after heq hc
  rcases List.append_eq_append_iff.mp heq with ⟨lead, rfl, hrest⟩ | ⟨trail, rfl, hrest⟩
  · obtain ⟨hspace, hcomma, hafter⟩ := hb lead c after hrest hc
    refine ⟨hspace, ?_, hafter⟩
    rw [List.getLast?_append, hcomma, Option.some_or]
  · cases trail with
    | nil =>
      obtain ⟨-, hcomma, -⟩ := hb [] c after hrest.symm hc
      exact absurd hcomma (by simp)
    | cons x trail =>
      obtain ⟨rfl, rfl⟩ := List.cons.inj hrest
      obtain ⟨hspace, hcomma, d, hd, hnot⟩ := ha before c trail rfl hc
      refine ⟨hspace, hcomma, d, ?_, hnot⟩
      show (trail ++ b).head? = some d
      rw [List.head?_append, hd, Option.some_or]

theorem Tidy.comma_append (hb : Tidy b) (hhead : ∃ d, b.head? = some d ∧ Text.isBlank d = false) :
    Tidy ([',', ' '] ++ b) := by
  intro before c after heq hc
  rcases before with _ | ⟨x, _ | ⟨y, before⟩⟩
  · obtain ⟨rfl, -⟩ := List.cons.inj heq
    exact absurd hc (by decide)
  · obtain ⟨rfl, hrest⟩ := List.cons.inj heq
    obtain ⟨rfl, rfl⟩ := List.cons.inj hrest
    exact ⟨rfl, rfl, hhead⟩
  · obtain ⟨rfl, hrest⟩ := List.cons.inj heq
    obtain ⟨rfl, rfl⟩ := List.cons.inj hrest
    obtain ⟨hspace, hcomma, hafter⟩ := hb before c after rfl hc
    refine ⟨hspace, ?_, hafter⟩
    cases before with
    | nil => exact absurd hcomma (by simp)
    | cons z before => simpa using hcomma

theorem tidy_join_comma {pieces : List (List Char)} (h : ∀ piece ∈ pieces, Tidy piece)
    (hhead : ∀ piece ∈ pieces, ∃ d, piece.head? = some d ∧ Text.isBlank d = false) :
    Tidy (Text.join [',', ' '] pieces) := by
  refine join_comma_of_append (tidy_of_not_blank (by simp)) (fun _ _ => Tidy.append) h ?_
  exact fun piece hp => (h piece hp).comma_append (hhead piece hp)

theorem TypeText.tidy (h : TypeText modifiers text) : Tidy text := by
  induction h with
  | plain ident free marked =>
    refine (tidy_of_not_blank fun c hc => isBlank_of_isIdentChar (ident.all c hc)).append ?_
    exact tidy_of_not_blank fun c hc => isBlank_of_mem_marks marked hc
  | @applied word arguments marks ident free types marked ih =>
    have hsplit : word ++ '<' :: (Text.join [',', ' '] arguments ++ '>' :: marks.flatten) =
        word ++ (['<'] ++ (Text.join [',', ' '] arguments ++ (['>'] ++ marks.flatten))) := by simp
    rw [hsplit]
    refine (tidy_of_not_blank fun c hc => isBlank_of_isIdentChar (ident.all c hc)).append ?_
    refine (tidy_of_not_blank (by decide)).append ?_
    refine (tidy_join_comma ih fun piece hp => ?_).append ?_
    · obtain ⟨c, rest, rfl, hc⟩ := (types piece hp).head
      exact ⟨c, rfl, hc⟩
    · refine (tidy_of_not_blank (by decide)).append ?_
      exact tidy_of_not_blank fun c hc => isBlank_of_mem_marks marked hc

/-! ## Groups -/

/-- Inside of so many angles at least, a text is read to its end without being split, and all
groups it opens are closed there. -/
def Passes (angles : Nat) (text : List Char) : Prop :=
  ∀ (nesting : Nesting) (piece rest : List Char), angles ≤ nesting.angles →
    nesting.previous ≠ some '-' → ∃ previous, previous ≠ some '-' ∧
      splitTopLevelFrom ',' nesting piece (text ++ rest) =
        splitTopLevelFrom ',' ⟨nesting.depth, nesting.angles, previous⟩ (text.reverse ++ piece) rest

theorem passes_nil (angles : Nat) : Passes angles [] :=
  fun nesting _ _ _ hprevious => ⟨nesting.previous, hprevious, rfl⟩

theorem Passes.append {angles : Nat} (ha : Passes angles a) (hb : Passes angles b) :
    Passes angles (a ++ b) := by
  intro nesting piece rest hangles hprevious
  obtain ⟨previous, hne, heq⟩ := ha nesting piece (b ++ rest) hangles hprevious
  obtain ⟨previous', hne', heq'⟩ :=
    hb ⟨nesting.depth, nesting.angles, previous⟩ (a.reverse ++ piece) rest hangles hne
  refine ⟨previous', hne', ?_⟩
  rw [List.append_assoc, heq, heq', List.reverse_append, List.append_assoc]

theorem Passes.mono {m n : Nat} (h : Passes m text) (hle : m ≤ n) : Passes n text :=
  fun nesting piece rest hangles => h nesting piece rest (Nat.le_trans hle hangles)

/-- Whether a character is no bracket, no comma and no dash. -/
def isPlainChar (c : Char) : Bool :=
  !(['(', ')', '[', ']', '\x7b', '\x7d', '<', '>', ',', '-'].contains c)

theorem passes_of_plain (h : ∀ c ∈ text, isPlainChar c = true) : Passes 0 text := by
  induction text with
  | nil => exact passes_nil 0
  | cons c text ih =>
    refine Passes.append (a := [c]) ?_ (ih fun d hd => h d (by simp [hd]))
    intro nesting piece rest hangles hprevious
    have hc : isPlainChar c = true := h c (by simp)
    simp only [isPlainChar, List.contains_eq_mem, List.mem_cons, List.not_mem_nil, or_false,
      Bool.not_eq_true', decide_eq_false_iff_not, not_or] at hc
    refine ⟨some c, by simp [hc], ?_⟩
    rw [List.singleton_append, splitTopLevelFrom, if_neg (by simp [Nesting.splits, hc])]
    simp [Nesting.after, Nesting.isBracket, hc]

/-- A comma inside of angles splits nothing. -/
theorem passes_comma : Passes 1 [','] := by
  intro nesting piece rest hangles hprevious
  refine ⟨some ',', by decide, ?_⟩
  have htop : nesting.isTop = false := by
    have hne : nesting.angles ≠ 0 := by omega
    simp [Nesting.isTop, hne]
  rw [List.singleton_append, splitTopLevelFrom, if_neg (by simp [Nesting.splits, htop])]
  simp [Nesting.after, Nesting.isBracket]

theorem Passes.angled (h : Passes 1 text) : Passes 0 ('<' :: (text ++ ['>'])) := by
  intro nesting piece rest hangles hprevious
  obtain ⟨previous, hne, heq⟩ := h ⟨nesting.depth, nesting.angles + 1, some '<'⟩ ('<' :: piece)
    ('>' :: rest) (Nat.le_add_left _ _) (by simp)
  refine ⟨some '>', by decide, ?_⟩
  have hopen : splitTopLevelFrom ',' nesting piece ('<' :: (text ++ ['>']) ++ rest) =
      splitTopLevelFrom ',' ⟨nesting.depth, nesting.angles + 1, some '<'⟩ ('<' :: piece)
        (text ++ '>' :: rest) := by
    rw [List.cons_append, List.append_assoc, List.singleton_append, splitTopLevelFrom,
      if_neg (by simp [Nesting.splits])]
    simp [Nesting.after]
  rw [hopen, heq, splitTopLevelFrom, if_neg (by simp [Nesting.splits])]
  simp [Nesting.after, Nesting.isBracket, hne]

theorem passes_mark {mark : List Char} (h : mark ∈ typeMarks) : Passes 0 mark := by
  simp only [typeMarks, List.mem_cons, List.not_mem_nil, or_false] at h
  rcases h with rfl | rfl | rfl
  · intro nesting piece rest hangles hprevious
    refine ⟨some ']', by decide, ?_⟩
    simp [splitTopLevelFrom, Nesting.splits, Nesting.after]
  · exact passes_of_plain (by decide)
  · exact passes_of_plain (by decide)

theorem passes_marks {marks : List (List Char)} (h : ∀ mark ∈ marks, mark ∈ typeMarks) :
    Passes 0 marks.flatten := by
  induction marks with
  | nil => exact passes_nil 0
  | cons mark marks ih =>
    rw [List.flatten_cons]
    exact (passes_mark (h mark (by simp))).append (ih fun m hm => h m (by simp [hm]))

theorem passes_join_comma {pieces : List (List Char)} (h : ∀ piece ∈ pieces, Passes 0 piece) :
    Passes 1 (Text.join [',', ' '] pieces) := by
  have hpiece : ∀ piece ∈ pieces, Passes 1 piece := fun piece hp => (h piece hp).mono (Nat.zero_le 1)
  have hspace : Passes 1 [' '] := (passes_of_plain (by decide)).mono (Nat.zero_le 1)
  refine join_comma_of_append (passes_nil 1) (fun _ _ => Passes.append) hpiece ?_
  exact fun piece hp => (passes_comma.append hspace).append (hpiece piece hp)

theorem isPlainChar_of_isIdentChar {c : Char} (h : isIdentChar c = true) :
    isPlainChar c = true := by
  rw [isPlainChar, Bool.not_eq_true', List.contains_eq_mem, decide_eq_false_iff_not]
  have hall : ∀ c ∈ ['(', ')', '[', ']', '\x7b', '\x7d', '<', '>', ',', '-'],
      isIdentChar c = false := by decide
  intro hmem
  rw [hall c hmem] at h
  exact Bool.false_ne_true h

theorem TypeText.passes (h : TypeText modifiers text) : Passes 0 text := by
  induction h with
  | plain ident free marked =>
    have hword := passes_of_plain fun c hc => isPlainChar_of_isIdentChar (ident.all c hc)
    exact hword.append (passes_marks marked)
  | @applied word arguments marks ident free types marked ih =>
    have hword := passes_of_plain fun c hc => isPlainChar_of_isIdentChar (ident.all c hc)
    have hsplit : word ++ '<' :: (Text.join [',', ' '] arguments ++ '>' :: marks.flatten) =
        word ++ ('<' :: (Text.join [',', ' '] arguments ++ ['>']) ++ marks.flatten) := by simp
    rw [hsplit]
    exact hword.append ((passes_join_comma ih).angled.append (passes_marks marked))

end Parameter
end Outline
