import Outline.Proofs.Extraction.Java.Constant
import Outline.Proofs.Pattern.Choice

/-!
# Declarations read part by part

What a pattern of Java reads off the front of a text is told for its parts one after the other:
annotations, modifiers, the words for kinds, types and names.  From them come the matches of
whole declarations.
-/

namespace Outline

namespace Java

open Parameter (IsIdent NameOf isIdentChar isDollarStart isDollarChar)
open Pattern (Prefers)

variable {reach : Reach} {rest : List Char}

/-! ## Annotations and modifiers -/

theorem prefers_annotations (h : reach.cursor.rest.head? ≠ some '@') :
    annotations.Prefers reach reach := by
  rw [Prefers, ends_annotations _ (List.pairwise_singleton _ _)]
  · rfl
  · intro r hr
    rw [List.mem_singleton.mp hr]
    exact h

/-- None of some words starts a text. -/
def StartsNone (words : List String) (text : List Char) : Prop :=
  ∀ word ∈ words, Text.dropLead? word.toList text = none

/-- Words are told apart from a text by their first letters. -/
theorem startsNone_of_head {words : List String} {a : Char}
    (h : (words.all fun word => word.toList.head?.any (· != a)) = true) (text : List Char) :
    StartsNone words (a :: text) := by
  intro word hw
  have hhead := List.all_eq_true.mp h word hw
  cases hchars : word.toList with
  | nil =>
    rw [hchars] at hhead
    exact nomatch hhead
  | cons b more =>
    rw [hchars] at hhead
    rw [Text.dropLead?, if_neg (by simpa using hhead)]

theorem StartsNone.ends_round (reach : Reach) {words : List String}
    (h : StartsNone words reach.cursor.rest) :
    (Pattern.oneOf words ++ Pattern.blanks1).ends [reach] = [] :=
  Pattern.ends_seq_of_nil (Pattern.ends_oneOf_of_nil fun word hw =>
    Pattern.ends_lit_eq_nil (h word hw))

theorem prefers_modifiers_none {words : List String} (h : StartsNone words reach.cursor.rest) :
    (modifiers words).Prefers reach (reach.passing .modifiers [] reach.cursor.rest) :=
  (Pattern.prefers_many_of_nil (StartsNone.ends_round (reach.enter .modifiers) h)).part

theorem prefers_blanks1_space (hr : reach.cursor.rest = ' ' :: rest)
    (h : ∀ c, rest.head? = some c → Text.isBlank c = false) :
    Pattern.blanks1.Prefers reach (reach.after [' '] rest) :=
  Pattern.prefers_run1 reach (List.cons_ne_nil _ _) hr (by decide) h

/-- Words of which none starts another one or a blank, and none has a space. -/
def ReadApart (words : List String) : Prop :=
  ∀ word ∈ words, (word.toList.head?.any fun c => !Text.isBlank c) = true ∧ ' ' ∉ word.toList ∧
    ∀ other ∈ words, other.toList <+: word.toList → other = word

instance (words : List String) : Decidable (ReadApart words) :=
  inferInstanceAs (Decidable (∀ word ∈ words, (word.toList.head?.any fun c => !Text.isBlank c) = true ∧
    ' ' ∉ word.toList ∧ ∀ other ∈ words, other.toList <+: word.toList → other = word))

theorem ReadApart.exists_head {words : List String} (h : ReadApart words) {word : String}
    (hw : word ∈ words) : ∃ c, word.toList.head? = some c ∧ Text.isBlank c = false := by
  have hany := (h word hw).1
  cases hhead : word.toList.head? with
  | none =>
    rw [hhead] at hany
    cases hany
  | some c =>
    rw [hhead] at hany
    exact ⟨c, rfl, by simpa using hany⟩

/-- The first of such words is read off a text that starts with it and a space. -/
theorem ReadApart.prefers_word {words : List String} (h : ReadApart words) {word : String}
    (hw : word ∈ words) (hr : reach.cursor.rest = word.toList ++ ' ' :: rest) :
    (Pattern.oneOf words).Prefers reach (reach.after word.toList (' ' :: rest)) := by
  obtain ⟨before, after, rfl, hbefore⟩ := List.eq_append_cons_of_mem hw
  refine Pattern.prefers_oneOf _ _ (fun other ho => Pattern.ends_lit_eq_nil ?_) hr
  have hother : other ∈ before ++ word :: after := List.mem_append_left _ ho
  rw [Option.eq_none_iff_forall_ne_some, hr]
  intro left hleft
  rcases List.append_eq_append_iff.mp (Text.dropLead?_eq_some_iff.mp hleft) with
    ⟨v, hv, hspace⟩ | ⟨v, hv, -⟩
  · cases v with
    | nil => exact hbefore ((h word hw).2.2 other hother ⟨[], by simp [hv]⟩ ▸ ho)
    | cons c v =>
      obtain rfl : ' ' = c := (List.cons.inj hspace).1
      exact (h other hother).2.1 (hv ▸ by simp)
  · exact hbefore ((h word hw).2.2 other hother ⟨v, hv.symm⟩ ▸ ho)

/-- Modifiers, each with a space behind it. -/
def modifiersText (chosen : List String) : List Char :=
  chosen.flatMap fun word => word.toList ++ [' ']

theorem modifiersText_cons (word : String) (chosen : List String) :
    modifiersText (word :: chosen) = word.toList ++ ' ' :: modifiersText chosen := by
  rw [modifiersText, List.flatMap_cons, List.append_assoc]
  rfl

theorem head?_modifiersText {words chosen : List String} (h : ReadApart words)
    (hc : ∀ word ∈ chosen, word ∈ words) (hblank : ∀ c, rest.head? = some c → Text.isBlank c = false) :
    ∀ c, (modifiersText chosen ++ rest).head? = some c → Text.isBlank c = false := by
  cases chosen with
  | nil => exact hblank
  | cons word chosen =>
    intro c hhead
    obtain ⟨a, ha, hletter⟩ := h.exists_head (hc word List.mem_cons_self)
    rw [modifiersText_cons, List.append_assoc, List.head?_append, ha, Option.some_or] at hhead
    exact Option.some.inj hhead ▸ hletter

theorem rounds_modifiers {words chosen : List String} (h : ReadApart words)
    (hc : ∀ word ∈ chosen, word ∈ words) (hr : reach.cursor.rest = modifiersText chosen ++ rest)
    (hblank : ∀ c, rest.head? = some c → Text.isBlank c = false) (hn : StartsNone words rest) :
    (Pattern.oneOf words ++ Pattern.blanks1).Rounds reach (reach.after (modifiersText chosen) rest) := by
  induction chosen generalizing reach with
  | nil =>
    have hrest : reach.cursor.rest = rest := hr
    have hsame : reach.after (modifiersText []) rest = reach := by
      obtain ⟨⟨previous, offset, _⟩, entered, marks⟩ := reach
      obtain rfl := hrest
      rfl
    rw [hsame]
    exact .stop (StartsNone.ends_round reach (hrest.symm ▸ hn))
  | cons word chosen ih =>
    obtain ⟨hword, hchosen⟩ := List.forall_mem_cons.mp hc
    rw [modifiersText_cons, List.append_assoc] at hr
    have hround := (h.prefers_word hword hr).seq
      (prefers_blanks1_space rfl (head?_modifiersText h hchosen hblank))
    have hmore : (Pattern.oneOf words ++ Pattern.blanks1).Rounds
        (reach.after (word.toList ++ [' ']) (modifiersText chosen ++ rest))
        ((reach.after (word.toList ++ [' ']) (modifiersText chosen ++ rest)).after
          (modifiersText chosen) rest) := ih hchosen rfl
    rw [Reach.after_after] at hround hmore
    rw [modifiersText_cons, List.append_cons]
    refine .round hround ?_ hmore
    show reach.offset < reach.offset + Text.width (word.toList ++ [' '])
    rw [Text.width_append]
    show reach.offset < reach.offset + (Text.width word.toList + 1)
    omega

/-- The modifiers are read as far as they go. -/
theorem prefers_modifiers {words chosen : List String} (h : ReadApart words)
    (hc : ∀ word ∈ chosen, word ∈ words) (hr : reach.cursor.rest = modifiersText chosen ++ rest)
    (hblank : ∀ c, rest.head? = some c → Text.isBlank c = false) (hn : StartsNone words rest) :
    (modifiers words).Prefers reach (reach.passing .modifiers (modifiersText chosen) rest) :=
  Pattern.Prefers.passing (Pattern.Rounds.prefers (rounds_modifiers h hc hr hblank hn))

/-! ## Words, types and names -/

theorem prefers_kind (before : List String) (word : String) {after : List String}
    (hb : StartsNone before reach.cursor.rest) (hr : reach.cursor.rest = word.toList ++ rest) :
    (Pattern.part .kind (.oneOf (before ++ word :: after))).Prefers reach
      (reach.passing .kind word.toList rest) :=
  (Pattern.prefers_oneOf _ (reach.enter .kind)
    (fun other ho => Pattern.ends_lit_eq_nil (hb other ho)) hr).passing

/-- A name in a declaration: a letter of ASCII, an underscore or a dollar sign, and any characters
of words and dollar signs behind it. -/
abbrev IsDollarName (name : List Char) : Prop := NameOf isDollarStart isDollarChar name

theorem isDollarName_of_isIdent {name : List Char} (h : IsIdent name) : IsDollarName name :=
  ⟨h.head, fun c hc => isDollarChar_of_isIdentChar (h.all c hc)⟩

theorem isBlank_of_head_name {name : List Char} (hn : IsDollarName name) (rest : List Char) :
    ∀ c, (name ++ rest).head? = some c → Text.isBlank c = false := by
  obtain ⟨a, ha, hstart⟩ := hn.head
  intro c hc
  rw [List.head?_append, ha, Option.some_or] at hc
  obtain rfl := Option.some.inj hc
  refine Bool.eq_false_iff.mpr fun hblank => ?_
  rw [Parameter.isDollarStart_of_isBlank hblank] at hstart
  cases hstart

theorem prefers_name {name : List Char} (hn : IsDollarName name)
    (hr : reach.cursor.rest = name ++ rest)
    (hstop : ∀ c, rest.head? = some c → isDollarChar c = false) :
    (Pattern.part .name .dollarName).Prefers reach (reach.passing .name name rest) := by
  refine Pattern.Prefers.passing ?_
  exact head?_ends_dollarName (reach.enter .name) hn hr hstop (by simp)

theorem ends_lit_of_forall {word : String} {reaches : List Reach}
    (h : ∀ r ∈ reaches, Text.dropLead? word.toList r.cursor.rest = none) :
    (Pattern.lit word).ends reaches = [] := by
  rw [Pattern.lit, Pattern.ends]
  refine List.filterMap_eq_nil_iff.mpr fun r hr => ?_
  rw [Reach.afterWord?, h r hr]
  rfl

/-- Behind a space no word is read that starts differently. -/
theorem ends_blanks_lit (reach : Reach) (word : String) {a : Char} {more : List Char}
    (hword : word.toList = a :: more) (hr : reach.cursor.rest = ' ' :: rest) (ha : a ≠ ' ')
    (h : ∀ c, rest.head? = some c → Text.isBlank c = false ∧ c ≠ a) :
    (Pattern.blanks ++ Pattern.lit word).ends [reach] = [] := by
  show (Pattern.lit word).ends (Pattern.blanks.ends [reach]) = []
  rw [ends_blanks_space reach hr fun c hc => (h c hc).1]
  refine ends_lit_of_forall fun r hmem => ?_
  rw [hword]
  rcases List.mem_cons.mp hmem with rfl | hmem
  · show Text.dropLead? (a :: more) rest = none
    cases rest with
    | nil => rfl
    | cons c rest => rw [Text.dropLead?, if_neg (h c rfl).2.symm]
  · rw [List.mem_singleton.mp hmem, hr, Text.dropLead?, if_neg ha]

/-- A type without arguments and brackets is read up to the space behind it. -/
theorem prefers_typeName {type : List Char} (hne : type ≠ [])
    (htype : ∀ c ∈ type, isPathChar c = true) (hr : reach.cursor.rest = type ++ ' ' :: rest)
    (h : ∀ c, rest.head? = some c → Text.isBlank c = false ∧ c ≠ '<' ∧ c ≠ '[') :
    typeName.Prefers reach (reach.passing .type type (' ' :: rest)) := by
  have hpath : (Pattern.run1 isPathChar).Prefers (reach.enter .type)
      ((reach.enter .type).after type (' ' :: rest)) :=
    Pattern.prefers_run1 _ hne hr htype fun c hc => Option.some.inj hc ▸ rfl
  have harguments : (Pattern.blanks ++ typeArguments).ends
      [(reach.enter .type).after type (' ' :: rest)] = [] := by
    have hopen := ends_blanks_lit ((reach.enter .type).after type (' ' :: rest)) "<" rfl
      rfl (by decide) fun c hc => ⟨(h c hc).1, (h c hc).2.1⟩
    show (Pattern.lit ">").ends ((Pattern.few isArgumentChar).ends
      ((Pattern.blanks ++ Pattern.lit "<").ends _)) = []
    rw [hopen, Pattern.ends_nil, Pattern.ends_nil]
  have harray : (Pattern.blanks ++ Pattern.lit "[" ++ Pattern.blanks ++ Pattern.lit "]").ends
      [(reach.enter .type).after type (' ' :: rest)] = [] := by
    have hopen := ends_blanks_lit ((reach.enter .type).after type (' ' :: rest)) "[" rfl
      rfl (by decide) fun c hc => ⟨(h c hc).1, (h c hc).2.2⟩
    exact Pattern.ends_seq_of_nil (Pattern.ends_seq_of_nil hopen)
  exact ((hpath.seq (Pattern.prefers_optional_of_nil harguments)).seq
    (Pattern.prefers_many_of_nil harray)).passing

/-! ## Declarations -/

/-- The modifiers of types. -/
def typeModifiers : List String :=
  ["public", "protected", "private", "static", "final", "abstract", "sealed", "non-sealed",
    "strictfp"]

/-- A class is matched up to the end of its name. -/
theorem matchAt_class (previous : Option Char) (offset : Nat) (chosen : List String)
    {name rest : List Char} (hchosen : ∀ word ∈ chosen, word ∈ typeModifiers)
    (hn : IsDollarName name) (hrest : ∀ c, rest.head? = some c → isDollarChar c = false) :
    ∃ found, typePattern.matchAt
        ⟨previous, offset, modifiersText chosen ++ ("class ".toList ++ (name ++ rest))⟩ =
          some found ∧
      found.start = offset ∧
      found.stop = offset + Text.width (modifiersText chosen ++ ("class ".toList ++ name)) ∧
      found.part? .name =
        some ⟨offset + Text.width (modifiersText chosen ++ "class ".toList), name⟩ ∧
      found.text .kind = "class".toList ∧ found.text .modifiers = modifiersText chosen ∧
      ∃ declaration, found.part? .declaration = some declaration ∧ declaration.start = offset := by
  have hapart : ReadApart typeModifiers := by decide
  have hletters : ∀ word ∈ typeModifiers, word.toList.head? ≠ some '@' := by decide
  have hsign : (modifiersText chosen ++ ("class ".toList ++ (name ++ rest))).head? ≠ some '@' := by
    cases chosen with
    | nil => rintro ⟨⟩
    | cons word chosen =>
      have hword := hchosen word List.mem_cons_self
      obtain ⟨a, ha, -⟩ := hapart.exists_head hword
      rw [modifiersText_cons, List.append_assoc, List.head?_append, ha, Option.some_or, ← ha]
      exact hletters word hword
  generalize hlead : modifiersText chosen = lead at hsign ⊢
  let text := lead ++ ("class ".toList ++ (name ++ rest))
  let start : Reach := .start ⟨previous, 0, text⟩
  let modified : Reach := (start.enter .declaration).passing .modifiers lead
    ("class ".toList ++ (name ++ rest))
  let kinded : Reach := modified.passing .kind "class".toList (' ' :: (name ++ rest))
  let spaced : Reach := kinded.after [' '] (name ++ rest)
  let named : Reach := (spaced.passing .name name rest).leave
  have hannotations : annotations.Prefers start start := prefers_annotations hsign
  have hmodifiers : (modifiers typeModifiers).Prefers (start.enter .declaration) modified := by
    have hread : (modifiers typeModifiers).Prefers (start.enter .declaration)
        ((start.enter .declaration).passing .modifiers (modifiersText chosen)
          ("class ".toList ++ (name ++ rest))) :=
      prefers_modifiers hapart hchosen (hlead ▸ rfl) (fun c hc => Option.some.inj hc ▸ rfl)
        (startsNone_of_head (by decide) _)
    rwa [hlead] at hread
  have hkind : (Pattern.part .kind (.oneOf ["class", "interface", "enum", "record",
      "@interface"])).Prefers modified kinded :=
    prefers_kind [] "class" (by simp [StartsNone]) rfl
  have hspace : Pattern.blanks1.Prefers kinded spaced :=
    prefers_blanks1_space rfl (isBlank_of_head_name hn _)
  have hname : (Pattern.part .name .dollarName).Prefers spaced
      (spaced.passing .name name rest) :=
    prefers_name hn rfl hrest
  have hall : typePattern.Prefers start named :=
    hannotations.seq (((hmodifiers.seq hkind).seq hspace).seq hname).part
  have hread : start.cursor.Reads (lead ++ ("class ".toList ++ name)) named.cursor := by
    constructor
    · show lead ++ ("class ".toList ++ (name ++ rest)) =
        lead ++ ("class ".toList ++ name) ++ rest
      simp only [List.append_assoc]
    · rw [Text.width_append, Text.width_append]
      show 0 + Text.width lead + 5 + 1 + Text.width name =
        0 + (Text.width lead + (6 + Text.width name))
      omega
  obtain ⟨found, hmatch, hstart, hstop, hpart⟩ := hall.exists_match hread offset
  refine ⟨found, hmatch, hstart, hstop, ?_, ?_, ?_, ?_⟩
  · refine (hpart .name).trans (congrArg some ((spaced.capture_passing name _ rfl offset).trans ?_))
    rw [Text.width_append]
    show Capture.mk (offset + (0 + Text.width lead + 5 + 1)) name = _
    rw [Nat.zero_add]
    rfl
  · rw [Match.text, hpart .kind]
    exact congrArg Capture.text (modified.capture_passing "class".toList _ rfl offset)
  · rw [Match.text, hpart .modifiers]
    exact congrArg Capture.text ((start.enter .declaration).capture_passing lead _ rfl offset)
  · exact ⟨_, hpart .declaration, rfl⟩

/-- A method with a space between its type and its name is matched up to the parenthesis. -/
theorem matchAt_method (previous : Option Char) (offset : Nat) (rest : List Char)
    {name : List Char} (hn : IsIdent name) :
    ∃ found, methodPattern.matchAt
        ⟨previous, offset, "public int ".toList ++ name ++ '(' :: rest⟩ = some found ∧
      found.start = offset ∧
      found.stop = offset + Text.width ("public int ".toList ++ name ++ ['(']) ∧
      found.part? .name = some ⟨offset + 11, name⟩ ∧
      found.part? .type = some ⟨offset + 7, "int".toList⟩ ∧
      found.text .modifiers = "public ".toList ∧
      ∃ declaration, found.part? .declaration = some declaration ∧ declaration.start = offset := by
  obtain ⟨a, more, rfl, hfirst⟩ := hn.exists_cons
  have hident : isIdentChar a = true := hn.all a List.mem_cons_self
  have hblank : Text.isBlank a = false := Parameter.isBlank_of_isIdentChar hident
  let text := "public int ".toList ++ (a :: more) ++ '(' :: rest
  let start : Reach := .start ⟨previous, 0, text⟩
  let modified : Reach := (start.enter .declaration).passing .modifiers "public ".toList
    ("int ".toList ++ (a :: more) ++ '(' :: rest)
  let typed : Reach := modified.passing .type "int".toList (' ' :: ((a :: more) ++ '(' :: rest))
  let spaced : Reach := typed.after [' '] ((a :: more) ++ '(' :: rest)
  let named : Reach := (spaced.passing .name (a :: more) ('(' :: rest)).leave
  have hmodifiers : (modifiers ["public", "protected", "private", "static", "final", "abstract",
      "synchronized", "native", "default", "strictfp"]).Prefers (start.enter .declaration)
      ((start.enter .declaration).passing .modifiers (modifiersText ["public"])
        ("int ".toList ++ (a :: more) ++ '(' :: rest)) :=
    prefers_modifiers (by decide) (by decide) rfl (fun c hc => Option.some.inj hc ▸ rfl)
      (startsNone_of_head (by decide) _)
  have hgeneric : (Pattern.optional (typeArguments ++ Pattern.blanks)).Prefers modified modified :=
    Pattern.prefers_optional_of_nil (Pattern.ends_seq_of_nil (Pattern.ends_seq_of_nil
      (Pattern.ends_seq_of_nil (Pattern.ends_lit_eq_nil rfl))))
  have htype : typeName.Prefers modified typed := by
    refine prefers_typeName (List.cons_ne_nil _ _) (by decide) rfl fun c hc => ?_
    obtain rfl : a = c := Option.some.inj hc
    refine ⟨hblank, ?_, ?_⟩ <;> (rintro rfl; exact absurd hident (by decide))
  have hspace : Pattern.blanks1.Prefers typed spaced :=
    prefers_blanks1_space rfl fun c hc => Option.some.inj hc ▸ hblank
  have hname : (Pattern.part .name .dollarName).Prefers spaced
      (spaced.passing .name (a :: more) ('(' :: rest)) :=
    prefers_name (isDollarName_of_isIdent hn) rfl fun c hc => Option.some.inj hc ▸ rfl
  have hblanks : Pattern.blanks.Prefers named named := by
    rw [Prefers, Pattern.blanks, Pattern.run0, Pattern.ends_run_of_not]
    · rfl
    · exact fun c hc => Option.some.inj hc ▸ rfl
  have hparen : (Pattern.lit "(").Prefers named (named.after ['('] rest) :=
    Pattern.prefers_lit named rfl
  have hdeclaration := ((hmodifiers.seq hgeneric).seq ((htype.seq hspace).optional)).seq hname
  have hannotations : annotations.Prefers start start :=
    prefers_annotations (by rintro ⟨⟩)
  have hall : methodPattern.Prefers start (named.after ['('] rest) :=
    ((hannotations.seq hdeclaration.part).seq hblanks).seq hparen
  have hread : start.cursor.Reads ("public int ".toList ++ (a :: more) ++ ['('])
      (named.after ['('] rest).cursor := by
    refine ⟨by simp [start, text, Reach.start, Reach.after], ?_⟩
    rw [Text.width_append, Text.width_append]
    show 0 + 7 + 3 + 1 + Text.width (a :: more) + 1 = 0 + (11 + Text.width (a :: more) + 1)
    omega
  obtain ⟨found, hmatch, hstart, hstop, hpart⟩ := hall.exists_match hread offset
  refine ⟨found, hmatch, hstart, hstop, ?_, ?_, ?_, ?_⟩
  · exact (hpart .name).trans (congrArg some (spaced.capture_passing (a :: more) _ rfl offset))
  · exact (hpart .type).trans
      (congrArg some (modified.capture_passing "int".toList _ rfl offset))
  · rw [Match.text, hpart .modifiers]
    exact congrArg Capture.text
      ((start.enter .declaration).capture_passing "public ".toList _ rfl offset)
  · exact ⟨_, hpart .declaration, rfl⟩

/-- The statement that returns a variable looks like a field. -/
theorem matchAt_return (previous : Option Char) (offset : Nat) (rest : List Char) :
    ∃ found, fieldPattern.matchAt ⟨previous, offset, "return x;".toList ++ rest⟩ = some found ∧
      found.stop = offset + 9 ∧ ∃ type, found.part? .type = some type ∧ type.text = "return".toList := by
  let text := "return x;".toList ++ rest
  let start : Reach := .start ⟨previous, 0, text⟩
  let modified : Reach := (start.enter .declaration).passing .modifiers [] text
  let typed : Reach := modified.passing .type "return".toList (' ' :: ("x;".toList ++ rest))
  let spaced : Reach := typed.after [' '] ("x;".toList ++ rest)
  let named : Reach := (spaced.passing .name ['x'] (';' :: rest)).leave
  have hannotations : annotations.Prefers start start := prefers_annotations (by rintro ⟨⟩)
  have hmodifiers : (modifiers ["public", "protected", "private", "static", "final", "transient",
      "volatile"]).Prefers (start.enter .declaration) modified :=
    prefers_modifiers_none (startsNone_of_head (by decide) _)
  have htype : typeName.Prefers modified typed :=
    prefers_typeName (by decide) (by decide) rfl fun c hc => Option.some.inj hc ▸ by decide
  have hspace : Pattern.blanks1.Prefers typed spaced :=
    prefers_blanks1_space rfl fun c hc => Option.some.inj hc ▸ rfl
  have hname : (Pattern.part .name .dollarName).Prefers spaced
      (spaced.passing .name ['x'] (';' :: rest)) :=
    prefers_name ⟨⟨'x', rfl, rfl⟩, by decide⟩ rfl fun c hc => Option.some.inj hc ▸ rfl
  have hblanks : Pattern.blanks.Prefers named named := by
    rw [Prefers, Pattern.blanks, Pattern.run0, Pattern.ends_run_of_not]
    · rfl
    · exact fun c hc => Option.some.inj hc ▸ rfl
  have hbrackets : (Pattern.many (.lit "[" ++ .blanks ++ .lit "]" ++ .blanks)).Prefers named named :=
    Pattern.prefers_many_of_nil (Pattern.ends_seq_of_nil (Pattern.ends_seq_of_nil
      (Pattern.ends_seq_of_nil (Pattern.ends_lit_eq_nil rfl))))
  have hend : (Pattern.char fun c => c == '=' || c == ';' || c == ',').Prefers named
      (named.after [';'] rest) := Pattern.prefers_char named rfl rfl
  have hall : fieldPattern.Prefers start (named.after [';'] rest) :=
    (((hannotations.seq (((hmodifiers.seq htype).seq hspace).seq hname).part).seq hblanks).seq
      hbrackets).seq hend
  have hread : start.cursor.Reads "return x;".toList (named.after [';'] rest).cursor := ⟨rfl, rfl⟩
  have htyped := modified.capture_passing "return".toList _ rfl offset
  obtain ⟨found, hmatch, -, hstop, hpart⟩ := hall.exists_match hread offset
  exact ⟨found, hmatch, hstop, _, hpart .type, congrArg Capture.text htyped⟩

end Java
end Outline
