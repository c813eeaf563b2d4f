import Mathlib
import Outline.Proofs.Declaration.NamePattern
import Outline.Proofs.Extraction.Java.Enum
import Outline.Proofs.Extraction.Java.Front
import Outline.Proofs.Extraction.Java.Reading
import Outline.Proofs.Extraction.Statement
import Outline.Proofs.Pattern.Anchor
import Outline.Proofs.Source.Balanced

/-!
# An annotation with one element

The text: an annotation whose only element has a default.  The element is found where it is
declared, and its parts can only be read in one way: up to the parenthesis no parenthesis is read,
so the name is what stands behind the last blank in front of it.
-/

namespace Outline
namespace Java

open Parameter (isDollarChar)
open Pattern (Matches Misses walled)

/-! ## The text -/

/-- The words that a method may have in front of it. -/
def methodModifiers : List String :=
  ["public", "protected", "private", "static", "final", "abstract", "synchronized", "native",
    "default", "strictfp"]

/-- The words that a declaration may start with, and those that are no types. -/
def reserved : List String := keywords ++ methodModifiers ++ typeModifiers ++ kindWords

/-- The type of an element: a qualified name, with type arguments and pairs of brackets or
without. -/
structure ElementType where
  path : List Char
  /-- Type arguments behind blanks. -/
  arguments : Option (List Char × List Char)
  /-- Pairs of brackets, each with the blanks in front of it and inside of it. -/
  brackets : List (List Char × List Char)
  path_ne_nil : path ≠ []
  isPath : ∀ c ∈ path, isPathChar c = true
  free : oneOfWords reserved path = false
  gap : ∀ pair ∈ arguments, ∀ c ∈ pair.1, Text.isBlank c = true
  inner : ∀ pair ∈ arguments, ∀ c ∈ pair.2, isArgumentChar c = true ∧ c ∉ ['"', '\'', '/']
  blanks : ∀ pair ∈ brackets, ∀ c ∈ pair.1 ++ pair.2, Text.isBlank c = true

namespace ElementType

/-- What stands behind the qualified name. -/
def trail (type : ElementType) : List Char :=
  (type.arguments.toList.flatMap fun pair => pair.1 ++ '<' :: (pair.2 ++ ['>'])) ++
    type.brackets.flatMap fun pair => pair.1 ++ '[' :: (pair.2 ++ [']'])

def text (type : ElementType) : List Char := type.path ++ type.trail

end ElementType

/-- An element of an annotation with its default: any text without quotes, comments and semicolons
whose braces are balanced. -/
structure Element where
  type : ElementType
  name : List Char
  value : List Char
  isName : IsDollarName name
  unreserved : oneOfWords keywords name = false
  bare : Text.isBare value = true
  whole : ';' ∉ value
  balanced : Delimiter.balanced '\x7b' '\x7d' value = true

namespace Element

/-- The annotation up to its brace. -/
def head : List Char := ['@', 'i', 'n', 't', 'e', 'r', 'f', 'a', 'c', 'e', ' ', 'A', ' ']

/-- The annotation up to its element. -/
def front : List Char := head ++ ['\x7b', ' ']

section

variable (element : Element)

/-- The element up to its parameters. -/
def signature : List Char := element.type.text ++ ' ' :: element.name

/-- The parameters, of which there are none, and the default. -/
def clause : List Char := ['(', ')', ' ', 'd', 'e', 'f', 'a', 'u', 'l', 't', ' '] ++ element.value

/-- An annotation with the element. -/
def text : List Char := front ++ (element.signature ++ (element.clause ++ [';', ' ', '\x7d']))

end

end Element

/-! ## Characters of types -/

namespace ElementType

variable (type : ElementType)

theorem forall_trail {P : Char → Prop} (hblank : ∀ c, Text.isBlank c = true → P c)
    (hinner : ∀ c, isArgumentChar c = true ∧ c ∉ ['"', '\'', '/'] → P c)
    (hmarks : ∀ c ∈ ['<', '>', '[', ']'], P c) : ∀ c ∈ type.trail, P c := by
  intro c hc
  rcases List.mem_append.mp hc with hc | hc
  · obtain ⟨pair, hpair, hc⟩ := List.mem_flatMap.mp hc
    have hpair := Option.mem_toList.mp hpair
    simp only [List.mem_append, List.mem_cons, List.not_mem_nil, or_false] at hc
    rcases hc with hc | rfl | hc | rfl
    · exact hblank c (type.gap pair hpair c hc)
    · exact hmarks '<' (by decide)
    · exact hinner c (type.inner pair hpair c hc)
    · exact hmarks '>' (by decide)
  · obtain ⟨pair, hpair, hc⟩ := List.mem_flatMap.mp hc
    simp only [List.mem_append, List.mem_cons, List.not_mem_nil, or_false] at hc
    rcases hc with hc | rfl | hc | rfl
    · exact hblank c (type.blanks pair hpair c (List.mem_append_left _ hc))
    · exact hmarks '[' (by decide)
    · exact hblank c (type.blanks pair hpair c (List.mem_append_right _ hc))
    · exact hmarks ']' (by decide)

/-- No quote, slash, brace, parenthesis or semicolon is in a type. -/
theorem notMem_text {c : Char} (hc : c ∈ ['"', '\'', '/', '\x7b', '\x7d', '(', ')', ';']) :
    c ∉ type.text := by
  have hpath : ∀ c ∈ ['"', '\'', '/', '\x7b', '\x7d', '(', ')', ';'], isPathChar c = false := by
    decide +kernel
  have hblank : ∀ c ∈ ['"', '\'', '/', '\x7b', '\x7d', '(', ')', ';'], Text.isBlank c = false := by
    decide
  have hinner : ∀ c ∈ ['"', '\'', '/', '\x7b', '\x7d', '(', ')', ';'],
      isArgumentChar c = false ∨ c ∈ ['"', '\'', '/'] := by decide
  have hmarks : ∀ c ∈ ['"', '\'', '/', '\x7b', '\x7d', '(', ')', ';'],
      c ∉ ['<', '>', '[', ']'] := by decide
  intro hmem
  rcases List.mem_append.mp hmem with hmem | hmem
  · exact Bool.false_ne_true ((hpath c hc).symm.trans (type.isPath c hmem))
  · refine type.forall_trail (P := fun x => x ≠ c) ?_ ?_ ?_ c hmem rfl
    · rintro x hx rfl
      exact Bool.false_ne_true ((hblank x hc).symm.trans hx)
    · rintro x ⟨hx, hnot⟩ rfl
      rcases hinner x hc with h | h
      · exact Bool.false_ne_true (h.symm.trans hx)
      · exact hnot h
    · rintro x hx rfl
      exact hmarks x hc hx

theorem isBlank_of_isPathChar {c : Char} (h : isPathChar c = true) : Text.isBlank c = false := by
  refine Bool.eq_false_iff.mpr fun hblank => ?_
  have hdollar : c ≠ '$' := fun hc => absurd (hc ▸ hblank) (by decide)
  have hdot : c ≠ '.' := fun hc => absurd (hc ▸ hblank) (by decide)
  simp [isPathChar, Text.isWordChar_eq_false_of_isBlank hblank, hdollar, hdot] at h

theorem exists_cons : ∃ c more, type.text = c :: more ∧ isPathChar c = true := by
  obtain ⟨c, more, hc⟩ := List.exists_cons_of_ne_nil type.path_ne_nil
  exact ⟨c, more ++ type.trail, by rw [text, hc]; rfl, type.isPath c (by simp [hc])⟩

/-- Behind the qualified name something else stands. -/
theorem head?_trail (rest : List Char) {c : Char} (h : (type.trail ++ ' ' :: rest).head? = some c) :
    Text.isBlank c = true ∨ c = '<' ∨ c = '[' := by
  have hgap : ∀ {gap more : List Char} {mark : Char}, (∀ x ∈ gap, Text.isBlank x = true) →
      (gap ++ mark :: more).head? = some c → Text.isBlank c = true ∨ c = mark := by
    intro gap more mark hgap hhead
    cases gap with
    | nil => exact .inr (Option.some.inj hhead).symm
    | cons x gap => exact .inl (Option.some.inj hhead ▸ hgap x List.mem_cons_self)
  have htext : type.trail ++ ' ' :: rest =
      (type.arguments.toList.flatMap fun pair => pair.1 ++ '<' :: (pair.2 ++ ['>'])) ++
        ((type.brackets.flatMap fun pair => pair.1 ++ '[' :: (pair.2 ++ [']'])) ++ ' ' :: rest) :=
    List.append_assoc _ _ _
  rw [htext] at h
  cases harguments : type.arguments with
  | some pair =>
    simp only [harguments, Option.toList_some, List.flatMap_singleton, List.append_assoc,
      List.cons_append] at h
    exact (hgap (type.gap pair harguments) h).imp_right .inl
  | none =>
    rw [harguments] at h
    cases hbrackets : type.brackets with
    | nil =>
      rw [hbrackets] at h
      exact .inl (Option.some.inj (show some ' ' = some c from h) ▸ rfl)
    | cons pair pairs =>
      simp only [hbrackets, Option.toList_none, List.flatMap_nil, List.nil_append,
        List.flatMap_cons, List.append_assoc, List.cons_append] at h
      refine (hgap (fun x hx => ?_) h).imp_right .inr
      exact type.blanks pair (hbrackets ▸ List.mem_cons_self) x (List.mem_append_left _ hx)

/-- A type does not end with a blank. -/
theorem exists_last : ∃ front last, type.text = front ++ [last] ∧ Text.isBlank last = false := by
  rcases List.eq_nil_or_concat type.brackets with hnil | ⟨pairs, pair, hpairs⟩
  · cases harguments : type.arguments with
    | some pair =>
      refine ⟨type.path ++ (pair.1 ++ '<' :: pair.2), '>', ?_, rfl⟩
      simp [text, trail, hnil, harguments]
    | none =>
      rcases List.eq_nil_or_concat type.path with hpath | ⟨front, last, hpath⟩
      · exact absurd hpath type.path_ne_nil
      · rw [List.concat_eq_append] at hpath
        refine ⟨front, last, ?_, isBlank_of_isPathChar (type.isPath last ?_)⟩
        · simp [text, trail, hnil, harguments, hpath]
        · simp [hpath]
  · rw [List.concat_eq_append] at hpairs
    refine ⟨type.path ++ ((type.arguments.toList.flatMap fun pair =>
      pair.1 ++ '<' :: (pair.2 ++ ['>'])) ++ ((pairs.flatMap fun pair =>
        pair.1 ++ '[' :: (pair.2 ++ [']'])) ++ (pair.1 ++ '[' :: pair.2))), ']', ?_, rfl⟩
    simp [text, trail, hpairs]

/-- The words that a declaration may start with do not start a type. -/
theorem ne_reserved {word : String} (hw : word ∈ reserved) {blank : Char}
    (hb : Text.isBlank blank = true) (rest more : List Char) :
    type.text ++ ' ' :: rest ≠ word.toList ++ blank :: more := by
  have hwords : (reserved.all fun word => word.toList.all isPathChar ||
      (word.toList.dropWhile isPathChar).head?.any ['@', '-'].contains) = true := by decide +kernel
  have hpathBlank : ∀ {c : Char}, Text.isBlank c = true → isPathChar c = false := fun hc =>
    Bool.eq_false_iff.mpr fun hpath =>
      Bool.false_ne_true ((isBlank_of_isPathChar hpath).symm.trans hc)
  have hmarks : isPathChar '<' = false ∧ isPathChar '[' = false ∧
      ∀ c ∈ ['@', '-'], isPathChar c = false ∧ Text.isBlank c = false ∧ c ≠ '<' ∧ c ≠ '[' := by
    decide +kernel
  have hstop : ∀ c, (type.trail ++ ' ' :: rest).head? = some c → isPathChar c = false := by
    intro c hc
    rcases type.head?_trail rest hc with hblank | rfl | rfl
    · exact hpathBlank hblank
    · exact hmarks.1
    · exact hmarks.2.1
  intro heq
  rw [text, List.append_assoc] at heq
  rcases Bool.or_eq_true_iff.mp (List.all_eq_true.mp hwords word hw) with hall | hmarked
  · have hall := List.all_eq_true.mp hall
    obtain ⟨hpath, -⟩ := Text.run_unique heq type.isPath hall hstop fun c hc =>
      Option.some.inj hc ▸ hpathBlank hb
    have hfree := type.free
    rw [oneOfWords, hpath] at hfree
    exact absurd hw (by simpa using hfree)
  · -- The word has a mark behind letters, and no mark stands behind a qualified name.
    obtain ⟨c, hhead, hc⟩ := (Option.any_eq_true _ _).mp hmarked
    obtain ⟨behind, hbehind⟩ := List.head?_eq_some_iff.mp hhead
    obtain ⟨hpath, hblank, hangle, hsquare⟩ := hmarks.2.2 c (List.contains_iff_mem.mp hc)
    have hsplit : word.toList = word.toList.takeWhile isPathChar ++ c :: behind := by
      rw [← hbehind, List.takeWhile_append_dropWhile]
    rw [hsplit, List.append_assoc] at heq
    obtain ⟨-, htrail⟩ := Text.run_unique heq type.isPath
      (fun x hx => List.all_eq_true.mp List.all_takeWhile x hx) hstop
      fun x hx => Option.some.inj hx ▸ hpath
    rcases type.head?_trail rest ((congrArg List.head? htrail).trans rfl) with h | h | h
    · exact Bool.false_ne_true (hblank.symm.trans h)
    · exact hangle h
    · exact hsquare h

theorem not_keyword : oneOfWords keywords type.text = false := by
  refine Bool.eq_false_iff.mpr fun hkey => ?_
  have hword : String.ofList type.text ∈ reserved := by
    have hmem : String.ofList type.text ∈ keywords := by simpa [oneOfWords] using hkey
    simp [reserved, hmem]
  refine type.ne_reserved hword (rfl : Text.isBlank ' ' = true) [] [] ?_
  rw [String.toList_ofList]

/-! ## Reading a type -/

theorem leaves_brackets {pairs : List (List Char × List Char)}
    (h : ∀ pair ∈ pairs, ∀ c ∈ pair.1 ++ pair.2, Text.isBlank c = true) (rest : List Char) :
    (Pattern.many (.blanks ++ .lit "[" ++ .blanks ++ .lit "]")).Leaves
      ((pairs.flatMap fun pair => pair.1 ++ '[' :: (pair.2 ++ [']'])) ++ rest) rest := by
  induction pairs with
  | nil => exact .refl
  | cons pair pairs ih =>
    obtain ⟨hpair, hpairs⟩ := List.forall_mem_cons.mp h
    refine .head ?_ (ih hpairs)
    rw [List.flatMap_cons, List.append_assoc, List.append_assoc, List.cons_append,
      List.append_assoc]
    exact ⟨_, ⟨_, ⟨_, ⟨pair.1, rfl, fun c hc => hpair c (List.mem_append_left _ hc)⟩, rfl⟩,
      pair.2, rfl, fun c hc => hpair c (List.mem_append_right _ hc)⟩, rfl⟩

/-- A type can be read. -/
theorem leaves_typeName (rest : List Char) : typeName.Leaves (type.text ++ rest) rest := by
  have hpath : (Pattern.run1 isPathChar).Leaves (type.text ++ rest) (type.trail ++ rest) := by
    have hall := type.isPath
    rw [text, List.append_assoc]
    cases hc : type.path with
    | nil => exact absurd hc type.path_ne_nil
    | cons c more =>
      rw [hc, List.forall_mem_cons] at hall
      exact ⟨_, ⟨c, hall.1, rfl⟩, more, rfl, hall.2⟩
  have harguments : (Pattern.optional (.blanks ++ typeArguments)).Leaves (type.trail ++ rest)
      ((type.brackets.flatMap fun pair => pair.1 ++ '[' :: (pair.2 ++ [']'])) ++ rest) := by
    rw [trail, List.append_assoc]
    cases hpair : type.arguments with
    | none => exact .inr rfl
    | some pair =>
      have hinner : ∀ c ∈ pair.2, isArgumentChar c = true := fun c hc =>
        (type.inner pair hpair c hc).1
      refine .inl ⟨_, ⟨pair.1, ?_, type.gap pair hpair⟩, _, ⟨_, rfl, pair.2, rfl, hinner⟩, rfl⟩
      simp only [Option.toList_some, List.flatMap_singleton, List.append_assoc, List.cons_append]
      rfl
  exact ⟨_, ⟨_, hpath, harguments⟩, leaves_brackets type.blanks rest⟩

end ElementType

namespace Element

variable (element : Element) {c d e f : Cursor} {ms ns os : List Mark}

/-! ## The element -/

/-- Where a type starts, no modifiers are read. -/
theorem eq_of_modifiers {words : List String} (hwords : ∀ word ∈ words, word ∈ reserved)
    (hm : Matches (modifiers words) c d ms) {rest : List Char}
    (hc : c.rest = element.type.text ++ ' ' :: rest) : d = c := by
  obtain ⟨_, hm, -⟩ := hm.of_part
  rcases hm.of_star with rfl | ⟨_, _, _, hround, -⟩
  · rfl
  · obtain ⟨_, _, _, hword, hblanks, -⟩ := hround.of_seq
    obtain ⟨_, _, _, hblank, -, -⟩ := hblanks.of_seq
    obtain ⟨word, hmem, hread⟩ := hword.of_oneOf
    obtain ⟨blank, hb, hread'⟩ := hblank.of_char
    exact absurd (hc.symm.trans (hread.1.trans (congrArg _ hread'.1)))
      (element.type.ne_reserved (hwords word hmem) hb rest _)

/-- Where the element starts, no annotation does. -/
theorem head?_signature_ne (rest : List Char) : (element.signature ++ rest).head? ≠ some '@' := by
  obtain ⟨a, more, htext, hpath⟩ := element.type.exists_cons
  have hsign : isPathChar '@' = false := by decide +kernel
  rw [signature, htext]
  intro hat
  rw [Option.some.inj (show some a = some '@' from hat)] at hpath
  exact Bool.false_ne_true (hsign.symm.trans hpath)

/-- Where the element starts, no type is declared. -/
theorem not_matches_type {rest : List Char} (hc : c.rest = element.signature ++ rest) :
    ¬ Matches typePattern c d ms := by
  intro hm
  obtain ⟨_, hbody⟩ := annotated_type.body_of_ne (hc ▸ element.head?_signature_ne rest) hm
  obtain ⟨_, hbody, -⟩ := hbody.of_part
  obtain ⟨_, _, _, hbody, -, -⟩ := hbody.of_seq
  obtain ⟨_, _, _, hbody, hblanks, -⟩ := hbody.of_seq
  obtain ⟨_, _, _, hmodifiers, hkind, -⟩ := hbody.of_seq
  obtain ⟨_, hkind, -⟩ := hkind.of_part
  rw [signature, List.append_assoc, List.cons_append] at hc
  obtain rfl := element.eq_of_modifiers (by decide) hmodifiers hc
  obtain ⟨word, hword, hread⟩ := hkind.of_oneOf
  obtain ⟨_, _, _, hblank, -, -⟩ := hblanks.of_seq
  obtain ⟨blank, hb, hread'⟩ := hblank.of_char
  have hreserved : ∀ word ∈ kindWords, word ∈ reserved := by decide
  exact absurd (hc.symm.trans (hread.1.trans (congrArg _ hread'.1)))
    (element.type.ne_reserved (hreserved word hword) hb _ _)

/-- Two ways to cut a declaration at blanks in front of its name are the same. -/
theorem eq_of_cut {typed gap name blanks : List Char} {blank : Char}
    (heq : typed ++ (blank :: gap ++ (name ++ blanks)) = element.signature)
    (hgap : ∀ c ∈ blank :: gap, Text.isBlank c = true) (hname : IsDollarName name)
    (hblanks : ∀ c ∈ blanks, Text.isBlank c = true) :
    typed = element.type.text ∧ blank :: gap = [' '] ∧ name = element.name ∧ blanks = [] := by
  have hlast : ∀ {name : List Char}, IsDollarName name → ∀ more c,
      (name.reverse ++ more).head? = some c → isDollarChar c = true := by
    intro name hname more c hc
    obtain ⟨first, hfirst, -⟩ := hname.head
    cases hrev : name.reverse with
    | nil => simp [List.reverse_eq_nil_iff.mp hrev] at hfirst
    | cons last front =>
      rw [hrev] at hc
      have hmem : last ∈ name := List.mem_reverse.mp (hrev ▸ List.mem_cons_self)
      exact Option.some.inj hc ▸ hname.all last hmem
  have hblank : ∀ {c : Char}, isDollarChar c = true → Text.isBlank c = false := fun hc =>
    Bool.eq_false_iff.mpr fun hb =>
      Bool.false_ne_true ((isDollarChar_of_isBlank hb).symm.trans hc)
  -- The blanks at the end, of which there are none, and the name are read off from behind.
  have hrev : blanks.reverse ++ (name.reverse ++ ((blank :: gap).reverse ++ typed.reverse)) =
      [] ++ (element.name.reverse ++ ' ' :: element.type.text.reverse) := by
    have h := congrArg List.reverse heq
    simpa only [signature, List.reverse_append, List.reverse_cons, List.append_assoc,
      List.singleton_append, List.nil_append] using h
  obtain ⟨hnone, hrest⟩ := Text.run_unique hrev
    (fun c hc => hblanks c (List.mem_reverse.mp hc)) nofun
    (fun c hc => hblank (hlast hname _ c hc)) fun c hc => hblank (hlast element.isName _ c hc)
  have hhead : ∀ c, ((blank :: gap).reverse ++ typed.reverse).head? = some c →
      isDollarChar c = false := by
    intro c hc
    cases hgapped : (blank :: gap).reverse with
    | nil => exact absurd (List.reverse_eq_nil_iff.mp hgapped) (List.cons_ne_nil _ _)
    | cons last front =>
      rw [hgapped] at hc
      have hmem : last ∈ blank :: gap := List.mem_reverse.mp (hgapped ▸ List.mem_cons_self)
      exact Option.some.inj hc ▸ isDollarChar_of_isBlank (hgap last hmem)
  obtain ⟨hnamed, hbefore⟩ := Text.run_unique hrest
    (fun c hc => hname.all c (List.mem_reverse.mp hc))
    (fun c hc => element.isName.all c (List.mem_reverse.mp hc)) hhead
    fun c hc => Option.some.inj hc ▸ isDollarChar_of_isBlank rfl
  obtain ⟨front, last, hlast, hlastBlank⟩ := element.type.exists_last
  -- Behind the last blank comes the last character of the type, which is none.
  have hone : (blank :: gap).reverse = [' '] := by
    cases hgapped : (blank :: gap).reverse with
    | nil => exact absurd (List.reverse_eq_nil_iff.mp hgapped) (List.cons_ne_nil _ _)
    | cons x more =>
      rw [hgapped] at hbefore
      obtain ⟨rfl, hmore⟩ := List.cons.inj hbefore
      cases more with
      | nil => rfl
      | cons y more =>
        rw [hlast, List.reverse_append] at hmore
        obtain rfl : y = last := (List.cons.inj hmore).1
        have hmem : y ∈ blank :: gap := List.mem_reverse.mp (hgapped ▸ by simp)
        exact absurd (hgap y hmem) (by simp [hlastBlank])
  rw [hone] at hbefore
  refine ⟨List.reverse_injective (List.cons.inj hbefore).2, ?_, List.reverse_injective hnamed,
    List.reverse_eq_nil_iff.mp hnone⟩
  exact List.reverse_injective hone

theorem notMem_signature {c : Char} (hc : c ∈ ['"', '\'', '/', '\x7b', '\x7d', '(', ')', ';']) :
    c ∉ element.signature := by
  have hname : ∀ c ∈ ['"', '\'', '/', '\x7b', '\x7d', '(', ')', ';'],
      isDollarChar c = false ∧ c ≠ ' ' := by decide +kernel
  intro hmem
  rcases List.mem_append.mp hmem with hmem | hmem
  · exact element.type.notMem_text hc hmem
  · rcases List.mem_cons.mp hmem with heq | hmem
    · exact (hname c hc).2 heq
    · exact Bool.false_ne_true ((hname c hc).1.symm.trans (element.isName.all c hmem))

/-- The element can be read up to its parenthesis. -/
theorem starts_method (rest : List Char) :
    methodPattern.Starts (element.signature ++ '(' :: rest) := by
  have htype : (Pattern.optional (typeName ++ .blanks1)).Leaves
      (element.signature ++ '(' :: rest) (element.name ++ '(' :: rest) := by
    rw [signature, List.append_assoc]
    exact .inl ⟨_, element.type.leaves_typeName _, _, ⟨' ', rfl, rfl⟩, [], rfl, nofun⟩
  have hname : (Pattern.part .name .dollarName).Leaves (element.name ++ '(' :: rest)
      ('(' :: rest) := element.isName.leaves _
  exact ⟨rest, _, ⟨_, ⟨_, .refl, _, ⟨_, ⟨_, .refl, .inr rfl⟩, htype⟩, hname⟩, [], rfl, nofun⟩, rfl⟩

/-- The type, the name and the parenthesis are read one after the other. -/
theorem reads_of_parts {g : Cursor} {ms₁ ms₂ ms₃ ms₄ : List Mark} {rest : List Char}
    (htype : Matches (.optional (typeName ++ .blanks1)) c d ms₁)
    (hname : Matches .dollarName d e ms₂) (hblanks : Matches .blanks e f ms₃)
    (hparen : Matches (.lit "(") f g ms₄) (hc : c.rest = element.signature ++ '(' :: rest) :
    (∃ x : Cursor, latest .type ms₁ = some ⟨.type, c, x.offset⟩ ∧
        c.Reads element.type.text x) ∧
      d.Reads element.name e ∧ c.Reads (element.signature ++ ['(']) g := by
  obtain ⟨name, hreadName, hisName⟩ :=
    Parameter.reads_nameOf (fun c => Parameter.isDollarChar_of_isDollarStart) hname
  obtain ⟨blanks, hblank, hreadBlanks⟩ := hblanks.of_run
  have hopen := hparen.of_word
  have hnameParen : '(' ∉ name ++ blanks := by
    have hmarks : isDollarChar '(' = false ∧ Text.isBlank '(' = false := by decide +kernel
    intro hmem
    rcases List.mem_append.mp hmem with hmem | hmem
    · exact Bool.false_ne_true (hmarks.1.symm.trans (hisName.all _ hmem))
    · exact Bool.false_ne_true (hmarks.2.symm.trans (hblank _ hmem))
  -- What is read up to the parenthesis is all that stands in front of the first one.
  have hall : ∀ {read : List Char}, c.Reads read f → '(' ∉ read → read = element.signature := by
    intro read hread hnot
    have heq := hread.1.symm.trans hc
    rw [hopen.1] at heq
    obtain ⟨v, hv, hrest⟩ := Pattern.append_of_append_cons hnot heq
    cases v with
    | nil => rw [hv, List.append_nil]
    | cons y v =>
      obtain rfl : '(' = y := (List.cons.inj hrest).1
      exact absurd (hv ▸ by simp) (element.notMem_signature (c := '(') (by decide))
  rcases htype.of_optional with htype | rfl
  · obtain ⟨x, _, _, htyped, hgap, rfl⟩ := htype.of_seq
    obtain ⟨typed, hreadType, htypedParen⟩ :=
      htyped.not_mem (by decide : typeName.spares '(' = true)
    obtain ⟨_, _, _, hfirst, hrun, rfl⟩ := hgap.of_seq
    obtain ⟨blank, hb, hreadFirst⟩ := hfirst.of_char
    obtain ⟨gap, hgapped, hreadGap⟩ := hrun.of_run
    have hreads := hreadType.trans ((hreadFirst.trans hreadGap).trans (hreadName.trans hreadBlanks))
    have hgapAll : ∀ x ∈ blank :: gap, Text.isBlank x = true :=
      List.forall_mem_cons.mpr ⟨hb, hgapped⟩
    have hgapParen : '(' ∉ blank :: gap := fun hmem =>
      absurd (hgapAll '(' hmem) (by decide)
    have hcut := hall hreads fun hmem => by
      rcases List.mem_append.mp hmem with hmem | hmem
      · exact htypedParen hmem
      · exact (List.mem_append.mp hmem).elim hgapParen hnameParen
    obtain ⟨rfl, hspace, rfl, rfl⟩ := element.eq_of_cut hcut hgapAll hisName hblank
    refine ⟨⟨x, ?_, hreadType⟩, hreadName, hcut ▸ hreads.trans hopen⟩
    obtain ⟨_, -, rfl⟩ := htyped.of_part
    rw [latest_append, hgap.latest_eq_none rfl, Option.none_or]
    exact latest_cons_self ⟨.type, c, x.offset⟩ _
  · -- Without a type the blank behind it would be in the name or behind it.
    exfalso
    have hcut := hall (hreadName.trans hreadBlanks) hnameParen
    have hspace : ' ' ∉ name := fun hmem =>
      absurd (hisName.all ' ' hmem) (by simp [isDollarChar_of_isBlank (c := ' ') rfl])
    obtain ⟨v, -, hv⟩ := Pattern.append_of_append_cons hspace hcut
    obtain ⟨first, hfirst, hstart⟩ := element.isName.head
    have hmem : first ∈ blanks := hv ▸ by simp [List.mem_of_head? hfirst]
    rw [Parameter.isDollarStart_of_isBlank (hblank first hmem)] at hstart
    cases hstart

/-- What is known of the match of the element, up to an offset. -/
structure MethodMatch (offset : Nat) (found : Match) : Prop where
  start : found.start = offset
  stop : found.stop = offset + Text.width element.signature + 1
  name : ∃ name, found.part? .name = some name ∧ name.text = element.name
  type : ∃ type, found.part? .type = some type ∧ type.text = element.type.text
  declaration : ∃ declaration, found.part? .declaration = some declaration

/-- The element can only be read in one way. -/
theorem methodMatch_of_matches {previous : Option Char} {rest : List Char} (base : Nat)
    (h : Matches methodPattern ⟨previous, 0, element.signature ++ '(' :: rest⟩ d ms) :
    element.MethodMatch base
      (.ofMarks base ⟨previous, 0, element.signature ++ '(' :: rest⟩ d ms) := by
  obtain ⟨c₃, _, _, hfront, hparen, rfl⟩ := h.of_seq
  obtain ⟨c₂, _, _, hlead, hblanks, rfl⟩ := hfront.of_seq
  obtain ⟨c₁, _, _, hannotations, hdeclaration, rfl⟩ := hlead.of_seq
  obtain ⟨_, hbody₃, rfl⟩ := hdeclaration.of_part
  obtain ⟨b₃, _, _, hbody₂, hname, rfl⟩ := hbody₃.of_seq
  obtain ⟨b₂, _, _, hbody₁, htype, rfl⟩ := hbody₂.of_seq
  obtain ⟨b₁, _, _, hmodifiers, harguments, rfl⟩ := hbody₁.of_seq
  obtain ⟨_, hnamed, rfl⟩ := hname.of_part
  obtain ⟨a, more, htext, hpath⟩ := element.type.exists_cons
  have hmark : isPathChar '<' = false := by decide +kernel
  -- Neither annotations nor modifiers nor type parameters stand in front of the type.
  obtain rfl : c₁ = ⟨previous, 0, element.signature ++ '(' :: rest⟩ :=
    of_annotations (element.head?_signature_ne _) hannotations
  have hc : Cursor.rest ⟨previous, 0, element.signature ++ '(' :: rest⟩ =
      element.type.text ++ ' ' :: (element.name ++ '(' :: rest) := List.append_assoc _ _ _
  obtain rfl := element.eq_of_modifiers (by decide) hmodifiers hc
  obtain rfl : b₂ = ⟨previous, 0, element.signature ++ '(' :: rest⟩ := by
    rcases harguments.of_optional with hopen | heq
    · obtain ⟨_, _, _, hopen, -, -⟩ := hopen.of_seq
      obtain ⟨_, _, _, hopen, -, -⟩ := hopen.of_seq
      obtain ⟨_, _, _, hopen, -, -⟩ := hopen.of_seq
      have hangle := congrArg List.head? hopen.of_word.1
      rw [signature, htext] at hangle
      rw [Option.some.inj (show some a = some '<' from hangle)] at hpath
      exact absurd (hmark.symm.trans hpath) Bool.false_ne_true
    · exact heq
  obtain ⟨⟨x, hmark, hreadType⟩, hreadName, hread⟩ :=
    element.reads_of_parts htype hnamed hblanks hparen rfl
  refine ⟨rfl, ?_, ?_, ?_, ?_⟩
  · rw [Match.stop_ofMarks hread, hread.2, Text.width_append]
    show base + (0 + (Text.width element.signature + 1)) = _
    omega
  · refine ⟨_, ?_, congrArg Capture.text (hreadName.capture_eq base)⟩
    rw [Match.part?_ofMarks]
    simp only [latest_append, latest_cons_of_ne, ne_eq, reduceCtorEq, not_false_eq_true,
      hparen.latest_eq_none rfl, hblanks.latest_eq_none rfl, Option.none_or]
    rfl
  · refine ⟨_, ?_, congrArg Capture.text (hreadType.capture_eq base)⟩
    rw [Match.part?_ofMarks]
    simp only [latest_append, latest_cons_of_ne, ne_eq, reduceCtorEq, not_false_eq_true,
      hparen.latest_eq_none rfl, hblanks.latest_eq_none rfl, hnamed.latest_eq_none rfl, hmark,
      Option.none_or, Option.some_or]
    rfl
  · rw [Match.part?_ofMarks]
    simp only [latest_append, hparen.latest_eq_none rfl, hblanks.latest_eq_none rfl, Option.none_or]
    exact ⟨_, rfl⟩

/-! ## What the patterns find -/

theorem text_eq_head : element.text =
    head ++ '\x7b' :: ' ' :: (element.signature ++ (element.clause ++ [';', ' ', '\x7d'])) := by
  rw [text, front, List.append_assoc]
  rfl

theorem text_eq_signature : element.text = front ++ (element.signature ++
    '(' :: (')' :: " default ".toList ++ (element.value ++ [';', ' ', '\x7d']))) := by
  have hclause : element.clause =
      '(' :: (')' :: " default ".toList ++ element.value) := by
    rw [clause]
    rfl
  rw [text, hclause]
  simp only [List.append_assoc, List.cons_append]

/-- The match of the annotation. -/
def headFound : Match :=
  ⟨⟨0, "@interface A".toList⟩, [(.declaration, ⟨0, "@interface A".toList⟩), (.name, ⟨11, ['A']⟩),
    (.kind, ⟨0, "@interface".toList⟩), (.modifiers, ⟨0, []⟩)]⟩

theorem matchAt_head (more : List Char) :
    typePattern.matchAt ⟨none, 0, head ++ more⟩ = some headFound := by
  rw [headFound, head]
  cbv

theorem matchAt_front (previous : Option Char) (offset : Nat) (more : List Char) :
    methodPattern.matchAt ⟨previous, offset, front ++ more⟩ = none := by
  rw [front, head]
  cbv

/-- No match for a method starts in front of the element. -/
theorem misses_front (rest : List Char) : methodPattern.Misses front rest := by
  have hsign : methodPattern.Misses ['@'] (front.tail ++ rest) := by
    intro a b hab hne previous offset
    rcases List.cons_eq_append_iff.mp hab with ⟨rfl, rfl⟩ | ⟨a, rfl, ha⟩
    · exact matchAt_front previous offset rest
    · exact absurd (List.append_eq_nil_iff.mp ha.symm).2 hne
  have hhead : methodPattern.Misses (head.tail ++ ['\x7b']) ([' '] ++ rest) :=
    misses_method (by decide) (by decide) (by decide)
  have hspace : methodPattern.Misses [' '] rest :=
    Pattern.misses_of_avoids (by decide) (by decide +kernel)
  exact hsign.append (hhead.append hspace)

/-- The element is the first method that is found. -/
theorem exists_findAll_method : ∃ found others,
    methodPattern.findAll element.text = found :: others ∧
      element.MethodMatch (Text.width front) found ∧
      ∀ other ∈ others, Text.width front < other.start := by
  have htext := element.text_eq_signature
  generalize ')' :: " default ".toList ++ (element.value ++ [';', ' ', '\x7d']) = rest at htext
  obtain ⟨found, hfound⟩ := Option.isSome_iff_exists.mp
    (Pattern.isSome_matchAt ⟨front.getLast?, Text.width front, element.signature ++ '(' :: rest⟩
      (element.starts_method rest))
  obtain ⟨others, hall, hothers⟩ := (misses_front _).exists_findAll hfound
  obtain ⟨d, ms, hmatches, rfl⟩ := Pattern.exists_of_matchAt hfound
  have hmatch := element.methodMatch_of_matches (Text.width front) hmatches
  rw [← htext] at hall
  exact ⟨_, others, hall, hmatch, fun other ho => hmatch.start ▸ hothers other ho⟩

/-- The annotation is the first type that is found. -/
theorem exists_findAll_type : ∃ others, typePattern.findAll element.text = headFound :: others ∧
    ∀ other ∈ others, 0 < other.start := by
  have hmatch := matchAt_head
    ('\x7b' :: ' ' :: (element.signature ++ (element.clause ++ [';', ' ', '\x7d'])))
  rw [← element.text_eq_head] at hmatch
  exact Pattern.exists_findAll_of_matchAt hmatch

/-- The text has neither quotes nor comments. -/
theorem isBare_text : Text.isBare element.text = true := by
  have hend : Text.isBare [';', ' ', '\x7d'] = true := by decide
  have hfront : ∀ c ∈ front ++ ['(', ')'] ++ " default ".toList, c ≠ '"' ∧ c ≠ '\'' ∧ c ≠ '/' := by
    decide
  rw [text_eq_signature]
  refine Text.isBare_append_of_forall (fun c hc => hfront c (by simp [hc])) ?_
  refine Text.isBare_append_of_forall (fun c hc => ?_) ?_
  · refine ⟨?_, ?_, ?_⟩
    all_goals
      rintro rfl
      exact absurd hc (element.notMem_signature (by decide))
  · refine Text.isBare_append_of_forall (a := ['(', ')'] ++ " default ".toList)
      (fun c hc => hfront c ?_) ?_
    · rw [List.append_assoc]
      exact List.mem_append_right _ hc
    · exact Text.isBare_append_cons element.bare hend (by decide) (by decide)

/-! ## Where statements start -/

/-- The text, cut behind the marks behind which statements start. -/
def pieces : List (List Char × Char) :=
  [(head, '\x7b'), (' ' :: (element.signature ++ element.clause), ';'), ([' '], '\x7d')]

theorem text_eq_walled : element.text = walled element.pieces := by
  simp [text, front, pieces, walled]

/-- Where the default has no braces, only the annotation and its element start statements. -/
theorem first_of_startsAfter (hbrace : '\x7b' ∉ element.value) {before rest : List Char} {c : Char}
    (h : element.text = before ++ c :: rest) (hc : Text.isBlank c = false)
    (hs : Statement.startsAfter before false = true) :
    before = [] ∨ before = front ∨ c = '\x7d' := by
  have hclose := Delimiter.not_mem_of_balanced element.balanced hbrace
  rcases Statement.exists_of_startsAfter hs with hblank | ⟨a, mark, blanks, rfl, hmark, hblank⟩
  · left
    cases before with
    | nil => rfl
    | cons x before =>
      obtain rfl : '@' = x := (List.cons.inj h).1
      exact absurd (hblank '@' List.mem_cons_self) (by decide)
  · right
    have hpieces : ∀ piece ∈ element.pieces, mark ∉ piece.1 := by
      have hvalue : ∀ mark ∈ ['\x7b', '\x7d', ';'], mark ∉ element.value :=
        List.forall_mem_cons.mpr ⟨hbrace, List.forall_mem_cons.mpr ⟨hclose,
          List.forall_mem_singleton.mpr element.whole⟩⟩
      have hfixed : ∀ mark ∈ ['\x7b', '\x7d', ';'], mark ≠ ' ' ∧ mark ∉ head ∧
          mark ∉ ['(', ')', ' ', 'd', 'e', 'f', 'a', 'u', 'l', 't', ' '] ∧
          mark ∈ ['"', '\'', '/', '\x7b', '\x7d', '(', ')', ';'] := by decide
      obtain ⟨hspace, hhead, hdefault, hmarks⟩ := hfixed mark hmark
      refine List.forall_mem_cons.mpr ⟨hhead, List.forall_mem_cons.mpr ⟨fun hmem => ?_,
        List.forall_mem_singleton.mpr (by simpa using hspace)⟩⟩
      rcases List.mem_cons.mp hmem with heq | hmem
      · exact hspace heq
      · rcases List.mem_append.mp hmem with hmem | hmem
        · exact element.notMem_signature hmarks hmem
        · exact (List.mem_append.mp hmem).elim hdefault (hvalue mark hmark)
    have hwalled := h
    rw [element.text_eq_walled, List.append_assoc, List.cons_append] at hwalled
    obtain ⟨earlier, piece, later, hsplit, hrest⟩ := Pattern.exists_of_walled hpieces hwalled
    rcases earlier with _ | ⟨_, _ | ⟨_, _ | ⟨_, _⟩⟩⟩
    · -- Behind the brace stands the element, with a space in front of it.
      obtain ⟨-, rfl⟩ := List.cons.inj hsplit
      obtain ⟨first, more, htype, hfirst⟩ := element.type.exists_cons
      have hspaced : blanks ++ c :: rest = [' '] ++ (element.signature ++
          (element.clause ++ [';', ' ', '\x7d'])) := by
        rw [hrest]
        simp [walled]
      obtain ⟨rfl, hbehind⟩ := Text.run_unique hspaced hblank (by decide)
        (fun x hx => Option.some.inj hx ▸ hc) fun x hx => by
          rw [signature, htype] at hx
          exact Option.some.inj hx ▸ ElementType.isBlank_of_isPathChar hfirst
      left
      rw [hbehind, text] at h
      exact (List.append_cancel_right h).symm
    · obtain ⟨-, hsplit⟩ := List.cons.inj hsplit
      obtain ⟨-, rfl⟩ := List.cons.inj hsplit
      have hspaced : blanks ++ c :: rest = [' '] ++ ['\x7d'] := hrest
      obtain ⟨-, hbehind⟩ := Text.run_unique hspaced hblank (by decide)
        (fun x hx => Option.some.inj hx ▸ hc) fun x hx => Option.some.inj hx ▸ rfl
      exact .inr (List.cons.inj hbehind).1
    · obtain ⟨-, hsplit⟩ := List.cons.inj hsplit
      obtain ⟨-, hsplit⟩ := List.cons.inj hsplit
      obtain ⟨-, rfl⟩ := List.cons.inj hsplit
      exact absurd hrest (by simp [walled])
    · simp [pieces] at hsplit

end Element

end Java
end Outline
