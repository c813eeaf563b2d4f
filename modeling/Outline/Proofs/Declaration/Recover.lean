import Outline.Extraction.Cpp.Pattern
import Outline.Extraction.Java.Pattern
import Outline.Proofs.Declaration.AlikeName
import Outline.Proofs.Declaration.TypeText

/-!
# Parameters are recovered

A list of declarations, each a type and a name behind it, is read back as that list.  The
one exception are types that are a single word which also qualifies others, such as `long`:
what stands behind such a word is taken for a part of the type.
-/

namespace Outline
namespace Parameter

variable {rules : ParameterRules} {type name : List Char}

/-- A name that parameters may have. -/
structure IsName (rules : ParameterRules) (name : List Char) : Prop where
  ident : IsIdent name
  untyped : oneOfWords rules.typeWords name = false

/-- A type and a name, as a declaration writes them. -/
def spell (type name : List Char) : List Char := type ++ ' ' :: name

/-- Whether a type is one word that also qualifies other types. -/
def isQualifierWord (rules : ParameterRules) (type : List Char) : Bool :=
  oneOfWords rules.typeWords type && isQualifier type

/-- What a declaration of a type and a name declares. -/
def declared (type name : List Char) : Parameter :=
  ⟨String.ofList name, String.ofList type, false, none⟩

/-- What such a declaration is read as. -/
def readBack (rules : ParameterRules) (type name : List Char) : Parameter :=
  if isQualifierWord rules type then ⟨"", String.ofList (spell type name), false, none⟩
  else declared type name

/-! ## Blanks -/

/-- Every blank of a text is a space in front of a character that is no blank. -/
def Spaced (text : List Char) : Prop :=
  ∀ before c after, text = before ++ c :: after → Text.isBlank c = true →
    c = ' ' ∧ ∃ d, after.head? = some d ∧ Text.isBlank d = false

theorem squeeze_of_spaced {text : List Char} (h : Spaced text) : Text.squeeze .none text = text := by
  induction text with
  | nil => rfl
  | cons c text ih =>
    have hrest : Text.squeeze .none text = text :=
      ih fun before d after heq => h (c :: before) d after (by rw [heq]; rfl)
    by_cases hc : Text.isBlank c = true
    · obtain ⟨rfl, d, hd, hnot⟩ := h [] c text rfl hc
      obtain ⟨rest, rfl⟩ := List.head?_eq_some_iff.mp hd
      simpa [Text.squeeze, hnot, Text.Gap.blank, Text.Gap.text] using hrest
    · simpa [Text.squeeze, hc, Text.Gap.text] using hrest

theorem normalizeSpace_of_spaced {c : Char} {text : List Char} (hc : Text.isBlank c = false)
    (h : Spaced (c :: text)) : Text.normalizeSpace (c :: text) = c :: text := by
  have hrest : Spaced text := fun before d after heq => h (c :: before) d after (by rw [heq]; rfl)
  rw [Text.normalizeSpace_eq_squeeze, Text.squeeze, if_neg (by simp [hc]), squeeze_of_spaced hrest]
  rfl

/-- Whether a text ends with a character of identifiers. -/
def EndsIdent (text : List Char) : Prop := ∃ c, text.getLast? = some c ∧ isIdentChar c = true

theorem EndsIdent.append {text : List Char} (h : EndsIdent text) (before : List Char) :
    EndsIdent (before ++ text) := by
  obtain ⟨c, hc, hident⟩ := h
  exact ⟨c, by rw [List.getLast?_append, hc, Option.some_or], hident⟩

theorem EndsIdent.trimEnd_eq {text : List Char} (h : EndsIdent text) : Text.trimEnd text = text := by
  obtain ⟨c, hc, hident⟩ := h
  have hend : Text.trimEnd (text ++ []) = text := by
    refine Text.trimEnd_append_blanks (by simp) fun d hd => ?_
    obtain rfl : c = d := Option.some.inj (hc.symm.trans hd)
    exact isBlank_of_isIdentChar hident
  rwa [List.append_nil] at hend

theorem EndsIdent.trim_eq {c : Char} {rest : List Char} (h : EndsIdent (c :: rest))
    (hc : Text.isBlank c = false) : Text.trim (c :: rest) = c :: rest := by
  have hstart : Text.trimStart (c :: rest) = c :: rest :=
    List.dropWhile_cons_of_neg (by simp [hc])
  rw [Text.trim, hstart, h.trimEnd_eq]

/-! ## Words of the rules -/

/-- Whether some words are made of characters of identifiers. -/
def identWords (words : List String) : Bool := words.all fun word => word.toList.all isIdentChar

theorem oneOfWords_eq_false {words : List String} (hw : identWords words = true) {word : List Char}
    {c : Char} (hmem : c ∈ word) (hc : isIdentChar c = false) : oneOfWords words word = false := by
  refine Bool.eq_false_iff.mpr fun h => ?_
  have hword : String.ofList word ∈ words := by simpa [oneOfWords] using h
  have hall := List.all_eq_true.mp (List.all_eq_true.mp hw _ hword) c (by simpa using hmem)
  rw [hc] at hall
  exact Bool.false_ne_true hall

/-- A text has one word, or its first one ends with a comma. -/
theorem Tidy.words (h : Tidy type) {c : Char} (hhead : type.head? = some c)
    (hc : Text.isBlank c = false) :
    Text.words type = [type] ∨
      ∃ word more, Text.words type = word :: more ∧ ',' ∈ word ∧ ',' ∈ type := by
  obtain ⟨rest, rfl⟩ := List.head?_eq_some_iff.mp hhead
  have hwords := Text.words_cons hc rest
  have hsplit := List.takeWhile_append_dropWhile (p := (!Text.isBlank ·)) (l := c :: rest)
  cases hdrop : (c :: rest).dropWhile (!Text.isBlank ·) with
  | nil =>
    rw [hdrop, List.append_nil] at hsplit
    rw [hdrop, hsplit] at hwords
    exact .inl hwords
  | cons d after =>
    rw [hdrop] at hsplit
    have hblank := Text.isBlank_of_head?_dropWhile (c :: rest) d (by rw [hdrop]; rfl)
    obtain ⟨-, hcomma, -⟩ := h _ d after hsplit.symm hblank
    have hmem := List.mem_of_getLast? hcomma
    exact .inr ⟨_, _, hwords, hmem, hsplit ▸ List.mem_append_left _ hmem⟩

/-! ## One declaration -/

theorem spell_head {modifiers : List String} (ht : TypeText modifiers type) (name : List Char) :
    ∃ c rest, spell type name = c :: rest ∧ Text.isBlank c = false := by
  obtain ⟨c, rest, rfl, hc⟩ := ht.head
  exact ⟨c, rest ++ ' ' :: name, rfl, hc⟩

theorem IsName.endsIdent (hn : IsName rules name) : EndsIdent name := by
  obtain ⟨a, rest, rfl, -⟩ := hn.ident.exists_cons
  have hlast := List.getLast?_eq_some_getLast (List.cons_ne_nil a rest)
  exact ⟨_, hlast, hn.ident.all _ (List.mem_of_getLast? hlast)⟩

theorem endsIdent_spell (type : List Char) (hn : IsName rules name) :
    EndsIdent (spell type name) := by
  have hspell : spell type name = (type ++ [' ']) ++ name := by simp [spell]
  rw [hspell]
  exact hn.endsIdent.append _

section

variable (ht : TypeText rules.modifiers type) (hn : IsName rules name)
include ht hn

theorem isTypeChar_of_mem_spell : ∀ c ∈ spell type name, isTypeChar c = true := by
  intro c hc
  rw [spell, List.mem_append, List.mem_cons] at hc
  rcases hc with hc | rfl | hc
  · exact ht.isTypeChar c hc
  · rfl
  · exact isTypeChar_of_isIdentChar (hn.ident.all c hc)

theorem spell_spaced : Spaced (spell type name) := by
  intro before c after heq hc
  rcases List.append_eq_append_iff.mp heq with ⟨lead, rfl, hrest⟩ | ⟨trail, rfl, hrest⟩
  · cases lead with
    | nil =>
      obtain ⟨rfl, rfl⟩ := List.cons.inj hrest
      obtain ⟨a, rest, rfl, -⟩ := hn.ident.exists_cons
      exact ⟨rfl, a, rfl, isBlank_of_isIdentChar (hn.ident.all a (by simp))⟩
    | cons d lead =>
      obtain ⟨-, hname⟩ := List.cons.inj hrest
      have hident : isIdentChar c = true := hn.ident.all c (by rw [hname]; simp)
      rw [isBlank_of_isIdentChar hident] at hc
      exact absurd hc Bool.false_ne_true
  · cases trail with
    | nil =>
      obtain ⟨rfl, rfl⟩ := List.cons.inj hrest
      obtain ⟨a, rest, rfl, -⟩ := hn.ident.exists_cons
      exact ⟨rfl, a, rfl, isBlank_of_isIdentChar (hn.ident.all a (by simp))⟩
    | cons d trail =>
      obtain ⟨rfl, rfl⟩ := List.cons.inj hrest
      obtain ⟨hspace, -, e, he, hnot⟩ := ht.tidy before c trail rfl hc
      refine ⟨hspace, e, ?_, hnot⟩
      show (trail ++ ' ' :: name).head? = some e
      rw [List.head?_append, he, Option.some_or]

theorem normalizeSpace_spell : Text.normalizeSpace (spell type name) = spell type name := by
  obtain ⟨c, rest, heq, hc⟩ := spell_head ht name
  have hspaced := spell_spaced ht hn
  rw [heq] at hspaced ⊢
  exact normalizeSpace_of_spaced hc hspaced

theorem trim_spell : Text.trim (spell type name) = spell type name := by
  obtain ⟨c, rest, heq, hc⟩ := spell_head ht name
  have hends := endsIdent_spell type hn
  rw [heq] at hends ⊢
  exact hends.trim_eq hc

theorem passes_spell : Passes 0 (spell type name) := by
  have hspace : Passes 0 [' '] := passes_of_plain (by decide)
  have hname : Passes 0 name :=
    passes_of_plain fun c hc => isPlainChar_of_isIdentChar (hn.ident.all c hc)
  exact ht.passes.append (hspace.append hname)

theorem not_mem_spell {c : Char} (hc : isTypeChar c = false) : c ∉ spell type name := by
  intro hmem
  rw [isTypeChar_of_mem_spell ht hn c hmem] at hc
  exact Bool.false_ne_true hc.symm

end

/-! ## What stands around a declaration -/

theorem splitDefaultFrom_of_not_mem {text : List Char} (h : '=' ∉ text) (depth : Int)
    (before : List Char) :
    splitDefaultFrom depth before text = (Text.trim (before.reverse ++ text), none) := by
  induction text generalizing depth before with
  | nil => rw [splitDefaultFrom, List.append_nil]
  | cons c text ih =>
    have hc : (c == '=') = false := beq_false_of_ne (List.ne_of_not_mem_cons h).symm
    have hrest := fun depth => ih (List.not_mem_of_not_mem_cons h) depth (c :: before)
    rw [List.reverse_cons, List.append_assoc, List.singleton_append] at hrest
    rw [splitDefaultFrom, hc, Bool.false_and, Bool.false_and, hrest, hrest, hrest]
    simp

theorem withoutDefault_of_not_mem {text : List Char} (h : '=' ∉ text) :
    withoutDefault rules text = (Text.trim text, none) := by
  rw [withoutDefault, splitDefault, splitDefaultFrom_of_not_mem h]
  simp

theorem Erased.eq_of_not_mem {s t : List Char} (h : Erased s t) (hs : '@' ∉ s) : t = s := by
  induction h with
  | nil => rfl
  | keep _ _ ih => rw [ih (List.not_mem_of_not_mem_cons hs)]
  | @erase s rest t hsome _ _ =>
    cases s with
    | nil => exact nomatch hsome
    | cons c s =>
      rw [annotationRest?_of_ne (List.ne_of_not_mem_cons hs).symm] at hsome
      exact nomatch hsome

section

variable (ht : TypeText rules.modifiers type) (hn : IsName rules name)
  (hmodifiers : identWords rules.modifiers = true)
include ht hn

include hmodifiers in
/-- The first word of a declaration is no modifier. -/
theorem unmodified_spell : unmodified rules (spell type name) = spell type name := by
  have hbare : annotation.replaceAll [' '] (spell type name) = spell type name :=
    (erased_replaceAll _).eq_of_not_mem (not_mem_spell ht hn rfl)
  have hjoin : Text.join [' '] (Text.words (spell type name)) = spell type name :=
    normalizeSpace_spell ht hn
  have hfirst : (Text.words (spell type name)).dropWhile (oneOfWords rules.modifiers) =
      Text.words (spell type name) := by
    obtain ⟨c, rest, heq, hc⟩ := spell_head ht name
    rw [heq, Text.words_cons hc, ← heq, List.dropWhile_cons_of_neg]
    obtain ⟨word, more, rfl, ident, free, hmore⟩ := ht.starts
    have hspell : spell (word ++ more) name = word ++ (more ++ ' ' :: name) := by
      rw [spell, List.append_assoc]
    rw [hspell, List.takeWhile_append_of_pos fun d hd => by
      simp [isBlank_of_isIdentChar (ident.all d hd)]]
    cases more with
    | nil => simp [show Text.isBlank ' ' = true from rfl, free]
    | cons d more =>
      by_cases hd : Text.isBlank d = true
      · simp [hd, free]
      · have hmem : d ∈ word ++ (d :: more ++ ' ' :: name).takeWhile (!Text.isBlank ·) := by
          simp [hd]
        rw [oneOfWords_eq_false hmodifiers hmem (hmore d rfl)]
        exact Bool.false_ne_true
  rw [unmodified, hbare, ite_self, hfirst, hjoin]

end

/-- A declaration ends with its name, so no brackets are taken off its end. -/
theorem takeArrays_spell (type : List Char) (hn : IsName rules name) (fuel : Nat)
    (suffix : List Char) :
    takeArrays fuel (spell type name).reverse suffix = ((spell type name).reverse, suffix) := by
  refine takeArrays_of_not (fun before inner h => ?_) fuel suffix
  obtain ⟨heq, -, more, rfl⟩ := h
  obtain ⟨c, hc, hident⟩ := endsIdent_spell type hn
  have hlast : (before ++ '[' :: (more ++ [']'])).getLast? = some ']' := by
    rw [← List.cons_append, ← List.append_assoc, List.getLast?_concat]
  rw [← heq, hc, Option.some.injEq] at hlast
  rw [hlast] at hident
  exact absurd hident (by decide)

/-! ## Type and name -/

theorem first_of_append {P : List Char → Prop} {a b : List Char} (hb : P b)
    (ha : ∀ before c after, a = before ++ c :: after → ¬ P (c :: after ++ b)) :
    Pattern.First P (a ++ b) a b := by
  induction a with
  | nil => exact .here hb
  | cons c a ih =>
    refine .later (ha [] c a rfl) (ih fun before d after heq => ha (c :: before) d after ?_)
    rw [heq]
    rfl

/-- The name that is found at the end of a declaration is all that stands behind the last
space. -/
theorem trailingName_spell (type : List Char) (hn : IsName rules name) :
    (trailingName.find? (spell type name)).bind (·.part? .name) =
      some ⟨Text.width (type ++ [' ']), name⟩ := by
  have hdollar : ∀ c, isIdentChar c = true → isDollarChar c = true := by
    intro c hc
    rw [isIdentChar, Bool.or_eq_true] at hc
    rcases hc with hplain | hdollar
    · exact Bool.or_eq_true_iff.mpr (.inl (isWordChar_of_plain hplain))
    · exact Bool.or_eq_true_iff.mpr (.inr hdollar)
  have hname : Trailing name [] :=
    ⟨⟨hn.ident.head, fun c hc => hdollar c (hn.ident.all c hc)⟩, by simp⟩
  have hstarts : trailingName.Starts name := by simpa using hname.starts
  have hnotBlank : ∀ lead gap, (∀ c ∈ gap, Text.isBlank c = true) → gap ≠ lead ++ ' ' :: name := by
    rintro lead gap hgap rfl
    obtain ⟨a, rest, rfl, -⟩ := hn.ident.exists_cons
    have hblank := hgap a (by simp)
    rw [isBlank_of_isIdentChar (hn.ident.all a (by simp))] at hblank
    exact Bool.false_ne_true hblank
  have hspell : spell type name = (type ++ [' ']) ++ name := by simp [spell]
  have hfirst : Pattern.First trailingName.Starts (spell type name) (type ++ [' ']) name := by
    rw [hspell]
    refine first_of_append hstarts fun before c after heq hlater => ?_
    -- A name that started earlier would have the last space in it or behind it.
    obtain ⟨front, hfront⟩ : ∃ front, c :: after = front ++ [' '] := by
      have hlast := congrArg List.getLast? heq
      rw [List.getLast?_concat, List.getLast?_append_of_ne_nil _ (by simp)] at hlast
      exact List.getLast?_eq_some_iff.mp hlast.symm
    obtain ⟨name', gap, hsplit, ht⟩ := starts_trailingName_iff.mp hlater
    rw [hfront, List.append_assoc, List.singleton_append] at hsplit
    rcases List.append_eq_append_iff.mp hsplit with ⟨lead, rfl, hrest⟩ | ⟨trail, rfl, hrest⟩
    · cases lead with
      | nil => exact hnotBlank [] gap ht.gap hrest.symm
      | cons d lead =>
        obtain ⟨rfl, -⟩ := List.cons.inj hrest
        exact absurd (ht.name.all ' ' (by simp)) (by decide)
    · exact hnotBlank trail gap ht.gap hrest
  obtain ⟨name', gap, ht, hsplit, hfind⟩ := trailingName_find?_of_first hfirst
  rw [hfind]
  have hunique : name' = name := ht.unique hname (by rw [← hsplit, List.append_nil])
  rw [hunique]

/-- A declaration of a type and a name is all type when its type is a word that qualifies
others. -/
theorem isTypeOnly_eq_isQualifierWord (ht : TypeText rules.modifiers type)
    (hn : IsName rules name) (htypes : identWords rules.typeWords = true) :
    isTypeOnly rules type name = isQualifierWord rules type := by
  obtain ⟨c, rest, htype, hc⟩ := ht.head
  obtain ⟨d, hd, hends⟩ := ht.last
  have hempty : type.isEmpty = false := by rw [htype]; rfl
  have hnotEnd : ∀ (word : List Char) (e : Char), word.getLast? = some e → endsType e = false →
      Text.endsWith type word = false := by
    intro word e he hnot
    refine Bool.eq_false_iff.mpr fun h => ?_
    obtain ⟨lead, rfl⟩ := endsWith_iff.mp h
    rw [List.getLast?_append, he, Option.some_or, Option.some.injEq] at hd
    rw [hd, hends] at hnot
    exact Bool.false_ne_true hnot.symm
  have hwords : ((Text.words type).all fun word =>
      oneOfWords rules.typeWords word && isQualifier word) = isQualifierWord rules type := by
    rcases ht.tidy.words (by rw [htype]; rfl) hc with hone | ⟨word, more, hmore, hcomma, hmem⟩
    · rw [hone, List.all_cons, List.all_nil, Bool.and_true]
      rfl
    · rw [hmore, List.all_cons, oneOfWords_eq_false htypes hcomma rfl, Bool.false_and,
        Bool.false_and, isQualifierWord, oneOfWords_eq_false htypes hmem rfl, Bool.false_and]
  rw [isTypeOnly, hempty, hnotEnd [':', ':'] ':' rfl rfl, hnotEnd ['.'] '.' rfl rfl, hn.untyped,
    hwords]
  simp

section

variable (ht : TypeText rules.modifiers type) (hn : IsName rules name)
  (hmodifiers : identWords rules.modifiers = true) (htypes : identWords rules.typeWords = true)
include ht hn hmodifiers htypes

omit hmodifiers in
theorem typeAndName_spell : typeAndName rules (spell type name) =
    if isQualifierWord rules type then (spell type name, []) else (type, name) := by
  have hpointer : (pointerName.find? (spell type name)).bind (·.part? .name) = none := by
    refine pointerName_find?_of_nowhere fun before after heq hstarts => ?_
    obtain ⟨gap, mark, gap', word, gap'', rest, hafter, -⟩ := starts_pointerName_iff.mp hstarts
    refine not_mem_spell ht hn (c := '(') rfl ?_
    rw [heq, hafter]
    exact List.mem_append_right _ List.mem_cons_self
  have hbefore : Text.trimEnd (Text.before (spell type name) (Text.width (type ++ [' ']))) =
      type := by
    have hspell : spell type name = (type ++ [' ']) ++ name := by simp [spell]
    obtain ⟨c, hc, hends⟩ := ht.last
    rw [hspell, Text.before_width_append]
    refine Text.trimEnd_append_blanks (by decide) fun d hd => ?_
    obtain rfl : c = d := Option.some.inj (hc.symm.trans hd)
    exact isBlank_of_endsType hends
  have htype : Text.normalizeSpace type = type := by
    obtain ⟨c, rest, heq, hc⟩ := ht.head
    have htidy := ht.tidy
    rw [heq] at htidy ⊢
    refine normalizeSpace_of_spaced hc fun before d after hsplit hd => ?_
    obtain ⟨hspace, -, hafter⟩ := htidy before d after hsplit hd
    exact ⟨hspace, hafter⟩
  have htrim : Text.trimEnd (spell type name) = spell type name :=
    (endsIdent_spell type hn).trimEnd_eq
  rw [typeAndName_of_not hpointer (by rw [htrim]; exact takeArrays_spell type hn _ []), splitName,
    trailingName_spell type hn]
  dsimp only
  rw [hbefore, isTypeOnly_eq_isQualifierWord ht hn htypes, List.append_nil, List.append_nil,
    normalizeSpace_spell ht hn, htype]

/-- A declaration is read as its type and its name, blanks around it aside. -/
theorem ofDeclaration?_spell {piece : List Char} (hpiece : Text.trim piece = spell type name)
    (hfree : '=' ∉ piece) : ofDeclaration? rules piece = some (readBack rules type name) := by
  obtain ⟨c, rest, hhead, -⟩ := spell_head ht name
  have hempty : (spell type name).isEmpty = false := by rw [hhead]; rfl
  have hdots : spell type name ≠ ['.', '.', '.'] := by
    intro heq
    have hspace : ' ' ∈ spell type name := by simp [spell]
    rw [heq] at hspace
    exact absurd hspace (by decide)
  obtain ⟨d, more, htype, -⟩ := ht.head
  rw [ofDeclaration?_eq, withoutDefault_of_not_mem hfree, hpiece]
  dsimp only
  rw [unmodified_spell ht hn hmodifiers, ofParts?, hempty, if_neg Bool.false_ne_true, if_neg hdots,
    typeAndName_spell ht hn htypes, readBack]
  cases isQualifierWord rules type with
  | true => simp [hempty]
  | false => simp [htype, declared]

end

/-! ## A list of declarations -/

/-- Declarations joined by commas are split where they were joined; each but the first keeps
the space in front of it. -/
theorem splitTopLevel_join {piece : List Char} {pieces : List (List Char)}
    (h : ∀ p ∈ piece :: pieces, Passes 0 p) :
    splitTopLevel ',' (Text.join [',', ' '] (piece :: pieces)) = piece :: pieces.map (' ' :: ·) := by
  suffices hall : ∀ (nesting : Nesting) (read : List Char), nesting.depth = 0 →
      nesting.angles = 0 → nesting.previous ≠ some '-' →
      splitTopLevelFrom ',' nesting read
          (piece ++ pieces.flatMap fun next => [',', ' '] ++ next) =
        (read.reverse ++ piece) :: pieces.map (' ' :: ·) by
    rw [join_comma_cons]
    exact hall .outside [] rfl rfl (by decide)
  induction pieces generalizing piece with
  | nil =>
    intro nesting read hdepth hangles hprevious
    obtain ⟨previous, -, heq⟩ := h piece (by simp) nesting read [] (Nat.zero_le _) hprevious
    rw [List.flatMap_nil, heq, splitTopLevelFrom, List.reverse_append, List.reverse_reverse]
    rfl
  | cons next pieces ih =>
    intro nesting read hdepth hangles hprevious
    obtain ⟨previous, hne, heq⟩ := h piece (by simp) nesting read
      ((next :: pieces).flatMap fun next => [',', ' '] ++ next) (Nat.zero_le _) hprevious
    have hspace : Passes 0 [' '] := passes_of_plain (by decide)
    have hnext : Passes 0 (' ' :: next) := hspace.append (h next (by simp))
    have hrest := @ih (' ' :: next) (by
      intro p hp
      rcases List.mem_cons.mp hp with rfl | hp
      · exact hnext
      · exact h p (by simp [hp])) ⟨0, 0, some ','⟩ [] rfl rfl (by decide)
    rw [heq, hdepth, hangles, List.flatMap_cons, List.append_assoc]
    show splitTopLevelFrom ',' ⟨0, 0, previous⟩ (piece.reverse ++ read)
      (',' :: (' ' :: next ++ _)) = _
    rw [splitTopLevelFrom, if_pos (by simp [Nesting.splits, Nesting.isTop, Nesting.isBracket])]
    have hafter : Nesting.after ⟨0, 0, previous⟩ ',' = ⟨0, 0, some ','⟩ := by
      simp [Nesting.after, Nesting.isBracket]
    rw [hafter, hrest, List.reverse_append, List.reverse_reverse]
    rfl

theorem endsIdent_join {piece : List Char} {pieces : List (List Char)}
    (h : ∀ p ∈ piece :: pieces, EndsIdent p) :
    EndsIdent (Text.join [',', ' '] (piece :: pieces)) := by
  rw [join_comma_cons]
  induction pieces generalizing piece with
  | nil => simpa using h piece (by simp)
  | cons next pieces ih =>
    have hnext := ih fun p hp => h p (List.mem_cons_of_mem piece hp)
    rw [List.flatMap_cons, List.append_assoc, ← List.append_assoc]
    exact hnext.append _

/-- A list of declarations, each given by its type and its name. -/
def spellAll (parameters : List (List Char × List Char)) : List Char :=
  Text.join [',', ' '] (parameters.map fun parameter => spell parameter.1 parameter.2)

section

variable {parameters : List (List Char × List Char)}
  (hmodifiers : identWords rules.modifiers = true) (htypes : identWords rules.typeWords = true)
  (h : ∀ parameter ∈ parameters, TypeText rules.modifiers parameter.1 ∧ IsName rules parameter.2)
include h

theorem trim_spellAll (hne : parameters ≠ []) :
    Text.trim (spellAll parameters) = spellAll parameters := by
  obtain ⟨first, parameters, rfl⟩ := List.exists_cons_of_ne_nil hne
  obtain ⟨c, rest, hhead, hc⟩ := spell_head (h first (by simp)).1 first.2
  have hends : EndsIdent (spellAll (first :: parameters)) :=
    endsIdent_join (List.forall_mem_map.mpr fun parameter hp => endsIdent_spell _ (h parameter hp).2)
  have hall : ∃ more, spellAll (first :: parameters) = c :: more := by
    rw [spellAll, List.map_cons, join_comma_cons, hhead]
    exact ⟨_, rfl⟩
  obtain ⟨more, hall⟩ := hall
  rw [hall] at hends ⊢
  exact hends.trim_eq hc

include hmodifiers htypes in
theorem ofList_spellAll_eq (hne : parameters ≠ []) : ofList rules (spellAll parameters) =
    parameters.map fun parameter => readBack rules parameter.1 parameter.2 := by
  cases parameters with
  | nil => exact absurd rfl hne
  | cons first parameters =>
    have hspace : ' ' ∈ spellAll (first :: parameters) := by
      rw [spellAll, List.map_cons, join_comma_cons, spell]
      simp
    have hempty : (spellAll (first :: parameters)).isEmpty = false := by
      rw [List.isEmpty_eq_false_iff]
      exact List.ne_nil_of_mem hspace
    have hvoid : (spellAll (first :: parameters) == ['v', 'o', 'i', 'd']) = false := by
      refine beq_false_of_ne fun heq => ?_
      rw [heq] at hspace
      exact absurd hspace (by decide)
    have hread : ∀ parameter ∈ first :: parameters, ∀ piece : List Char,
        piece = spell parameter.1 parameter.2 ∨ piece = ' ' :: spell parameter.1 parameter.2 →
        ofDeclaration? rules piece = some (readBack rules parameter.1 parameter.2) := by
      intro parameter hp piece hpiece
      obtain ⟨ht, hn⟩ := h parameter hp
      have hfree : '=' ∉ spell parameter.1 parameter.2 := not_mem_spell ht hn rfl
      rcases hpiece with rfl | rfl
      · exact ofDeclaration?_spell ht hn hmodifiers htypes (trim_spell ht hn) hfree
      · refine ofDeclaration?_spell ht hn hmodifiers htypes (trim_spell ht hn) ?_
        simpa using hfree
    have hsplit : splitTopLevel ',' (spellAll (first :: parameters)) =
        spell first.1 first.2 :: (parameters.map fun p => spell p.1 p.2).map (' ' :: ·) :=
      splitTopLevel_join (List.forall_mem_map.mpr fun parameter hp =>
        passes_spell (h parameter hp).1 (h parameter hp).2)
    rw [ofList, trim_spellAll h hne, hempty, hvoid, hsplit, if_neg (by simp),
      List.filterMap_cons_some (hread first (by simp) _ (.inl rfl)), List.map_map,
      List.filterMap_map, List.map_cons, List.cons.injEq]
    refine ⟨rfl, ?_⟩
    rw [← List.filterMap_eq_map]
    refine List.filterMap_congr fun parameter hp => ?_
    exact hread parameter (by simp [hp]) _ (.inr rfl)

end

/-- A list of declarations, each a type and a name, is read as that list, in order and with no
parameter optional, but for types that are a word which also qualifies others: such a word and
the name behind it are read as a type without a name.  So the list is recovered exactly when no
type is such a word. -/
theorem ofList_spellAll (hr : rules ∈ [Java.parameterRules, Cpp.parameterRules])
    {parameters : List (List Char × List Char)} (hne : parameters ≠ [])
    (h : ∀ parameter ∈ parameters,
      TypeText rules.modifiers parameter.1 ∧ IsName rules parameter.2) :
    ofList rules (spellAll parameters) =
        parameters.map (fun parameter => readBack rules parameter.1 parameter.2) ∧
      (ofList rules (spellAll parameters) =
          parameters.map (fun parameter => declared parameter.1 parameter.2) ↔
        ∀ parameter ∈ parameters, isQualifierWord rules parameter.1 = false) := by
  have hwords : ∀ rules ∈ [Java.parameterRules, Cpp.parameterRules],
      identWords rules.modifiers = true ∧ identWords rules.typeWords = true := by
    simp only [List.mem_cons, List.not_mem_nil, or_false]
    rintro _ (rfl | rfl)
    · exact ⟨by decide, by decide⟩
    · exact ⟨by decide, by decide⟩
  obtain ⟨hmodifiers, htypes⟩ := hwords rules hr
  have heq := ofList_spellAll_eq hmodifiers htypes h hne
  refine ⟨heq, ?_⟩
  rw [heq, List.map_inj_left]
  refine forall_congr' fun parameter => forall_congr' fun hp => ?_
  rw [readBack]
  cases isQualifierWord rules parameter.1 with
  | false => simp
  | true =>
    obtain ⟨c, rest, hname, -⟩ := (h parameter hp).2.ident.exists_cons
    refine iff_of_false (fun hsame => ?_) Bool.noConfusion
    have hnames := congrArg Parameter.name hsame
    simp [declared, hname] at hnames

/-- A type with types in it and marks behind it is recovered; a `long` takes the name behind it
along. -/
theorem ofList_spellAll_nested :
    (∀ parameter ∈ [("Map<String, List<int[]>>[]".toList, "index".toList),
        ("long".toList, "size".toList)],
      TypeText Java.parameterRules.modifiers parameter.1 ∧
        IsName Java.parameterRules parameter.2) ∧
      ofList Java.parameterRules "Map<String, List<int[]>>[] index, long size".toList =
        [⟨"index", "Map<String, List<int[]>>[]", false, none⟩, ⟨"", "long size", false, none⟩] := by
  have hident : ∀ word ∈ ["Map".toList, "String".toList, "List".toList, "int".toList,
      "long".toList, "index".toList, "size".toList], IsIdent word := by
    intro word hw
    simp only [List.mem_cons, List.not_mem_nil, or_false] at hw
    rcases hw with rfl | rfl | rfl | rfl | rfl | rfl | rfl
    all_goals exact ⟨⟨_, rfl, by decide⟩, by decide⟩
  have hmark : ∀ mark ∈ [['[', ']']], mark ∈ typeMarks := by decide
  have hstring : TypeText Java.parameterRules.modifiers "String".toList :=
    @TypeText.plain _ "String".toList [] (hident _ (by simp)) (by decide) (by simp)
  have hint : TypeText Java.parameterRules.modifiers "int[]".toList :=
    @TypeText.plain _ "int".toList [['[', ']']] (hident _ (by simp)) (by decide) hmark
  have hlong : TypeText Java.parameterRules.modifiers "long".toList :=
    @TypeText.plain _ "long".toList [] (hident _ (by simp)) (by decide) (by simp)
  have hlist : TypeText Java.parameterRules.modifiers "List<int[]>".toList :=
    @TypeText.applied _ "List".toList ["int[]".toList] [] (hident _ (by simp)) (by decide)
      (by simpa using hint) (by simp)
  have hmap : TypeText Java.parameterRules.modifiers "Map<String, List<int[]>>[]".toList :=
    @TypeText.applied _ "Map".toList ["String".toList, "List<int[]>".toList] [['[', ']']]
      (hident _ (by simp)) (by decide) (by simpa using ⟨hstring, hlist⟩) hmark
  have hall : ∀ parameter ∈ [("Map<String, List<int[]>>[]".toList, "index".toList),
      ("long".toList, "size".toList)], TypeText Java.parameterRules.modifiers parameter.1 ∧
        IsName Java.parameterRules parameter.2 := by
    intro parameter hp
    simp only [List.mem_cons, List.not_mem_nil, or_false] at hp
    rcases hp with rfl | rfl
    · exact ⟨hmap, hident _ (by simp), by decide⟩
    · exact ⟨hlong, hident _ (by simp), by decide⟩
  exact ⟨hall, (ofList_spellAll (by simp) (by simp) hall).1.trans (by decide)⟩

end Parameter
end Outline
