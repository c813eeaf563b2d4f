import Outline.Extraction.Cpp.Rule
import Outline.Proofs.Extraction.Cpp.Qualified
import Outline.Proofs.Extraction.Statement
import Outline.Proofs.Extraction.Subject
import Outline.Proofs.Pattern.Sweep
import Outline.Proofs.Source.Balanced
import Outline.Proofs.Source.CppToken
import Outline.Proofs.Text.Boundary
import Outline.Proofs.Text.Word

/-!
# A struct whose function has a trailing return type

A trailing return type is read up to the body, so the specifiers behind it are read with it and
have to be cut off again.  They are cut in a fixed order and only where the text ends with them:
the last of them goes and the others stay, and where there is none the type itself is cut, if it
ends with one of the words.

The text of the struct has nothing to hide, so all views show it as it is.  Its statements start
behind its braces and its semicolon, which is read off the text from mark to mark.
-/

namespace Outline

namespace Text

variable {word text : List Char}

/-! ## Cutting a word off the end -/

theorem dropLeads_of_not_isPrefix (h : ¬ word <+: text) (fuel : Nat) :
    dropLeads word fuel text = text := by
  have hnone : dropLead? word text = none := by
    refine Option.eq_none_iff_forall_ne_some.mpr fun rest hrest => h ⟨rest, ?_⟩
    exact (dropLead?_eq_some_iff.mp hrest).symm
  cases fuel with
  | zero => rfl
  | succ fuel => rw [dropLeads, hnone]

theorem dropTrails_of_not_isSuffix (h : ¬ word <:+ text) : dropTrails word text = text := by
  rw [dropTrails, dropLeads_of_not_isPrefix fun hlead => h (List.reverse_prefix.mp hlead),
    List.reverse_reverse]

theorem dropLeads_isSuffix (word : List Char) (fuel : Nat) (text : List Char) :
    dropLeads word fuel text <:+ text := by
  induction fuel generalizing text with
  | zero => exact List.suffix_refl text
  | succ fuel ih =>
    rw [dropLeads]
    split
    · next rest hrest =>
      rw [dropLead?_eq_some_iff.mp hrest]
      exact (ih rest).trans (List.suffix_append word rest)
    · exact List.suffix_refl text

theorem dropTrails_isPrefix (word text : List Char) : dropTrails word text <+: text := by
  rw [dropTrails, ← List.reverse_suffix, List.reverse_reverse]
  exact dropLeads_isSuffix _ _ _

/-- Where a text ends with the word, it is cut off, and then the text in front of it. -/
theorem exists_dropTrails_append (hne : word ≠ []) (text : List Char) : ∃ fuel,
    dropTrails word (text ++ word) = (dropLeads word.reverse fuel text.reverse).reverse := by
  obtain ⟨fuel, hfuel⟩ : ∃ fuel, (text ++ word).length = fuel + 1 :=
    Nat.exists_eq_succ_of_ne_zero (by simp [hne])
  have hdrop : dropLead? word.reverse (text ++ word).reverse = some text.reverse :=
    dropLead?_eq_some_iff.mpr List.reverse_append
  exact ⟨fuel, by rw [dropTrails, hfuel, dropLeads, hdrop]⟩

/-- A word that the rest does not end with is cut off once. -/
theorem dropTrails_append_of_not_isSuffix (hne : word ≠ []) (h : ¬ word <:+ text) :
    dropTrails word (text ++ word) = text := by
  obtain ⟨fuel, hfuel⟩ := exists_dropTrails_append hne text
  rw [hfuel, dropLeads_of_not_isPrefix fun hlead => h (List.reverse_prefix.mp hlead),
    List.reverse_reverse]

/-- Cutting a word off leaves a text as it is exactly where it does not end with the word. -/
theorem dropTrails_eq_self_iff (hne : word ≠ []) :
    dropTrails word text = text ↔ ¬ word <:+ text := by
  refine ⟨?_, dropTrails_of_not_isSuffix⟩
  rintro h ⟨front, rfl⟩
  obtain ⟨fuel, hfuel⟩ := exists_dropTrails_append hne front
  have hle := (dropLeads_isSuffix word.reverse fuel front.reverse).length_le
  have hlength := congrArg List.length (hfuel.symm.trans h)
  have hpos := List.length_pos_iff.mpr hne
  rw [List.length_reverse] at hle
  rw [List.length_reverse, List.length_append] at hlength
  omega

/-- A text does not end with a word that has another last character. -/
theorem not_isSuffix_of_last {c d : Char} (h : c ≠ d) (word front : List Char) :
    ¬ word ++ [c] <:+ front ++ [d] := by
  rintro ⟨lead, heq⟩
  rw [← List.append_assoc] at heq
  exact h (List.singleton_inj.mp (List.append_inj' heq rfl).2)

/-- A text with no blank at its ends is what trimming leaves of it and blanks behind it. -/
theorem trim_append_blanks {blanks : List Char} (hb : ∀ c ∈ blanks, isBlank c = true)
    (hfirst : ∀ c, text.head? = some c → isBlank c = false)
    (hlast : ∀ c, text.getLast? = some c → isBlank c = false) : trim (text ++ blanks) = text := by
  cases text with
  | nil =>
    have hnil : trimStart (blanks ++ []) = [] := List.dropWhile_append_of_pos hb
    rw [List.append_nil] at hnil
    rw [List.nil_append, trim, hnil]
    rfl
  | cons c text =>
    have hc : isBlank c = false := hfirst c rfl
    rw [trim, trimStart, List.cons_append, List.dropWhile_cons_of_neg (by simp [hc]),
      ← List.cons_append]
    exact trimEnd_append_blanks hb hlast

/-! ## Words behind spaces -/

/-- Words, each behind a space. -/
def spaced (words : List (List Char)) : List Char := words.flatMap (' ' :: ·)

theorem spaced_cons (word : List Char) (words : List (List Char)) :
    spaced (word :: words) = ' ' :: (word ++ spaced words) := rfl

theorem eq_space_or_mem_of_mem_spaced {words : List (List Char)} {c : Char} (h : c ∈ spaced words) :
    c = ' ' ∨ ∃ word ∈ words, c ∈ word := by
  obtain ⟨word, hword, hc⟩ := List.mem_flatMap.mp h
  exact (List.mem_cons.mp hc).imp_right fun hc => ⟨word, hword, hc⟩

theorem spaced_concat (words : List (List Char)) (word : List Char) :
    spaced (words ++ [word]) = spaced words ++ ' ' :: word := by
  rw [spaced, List.flatMap_append, List.flatMap_singleton, spaced]

/-- Words behind spaces are told apart. -/
theorem words_spaced {pieces : List (List Char)}
    (h : ∀ piece ∈ pieces, piece ≠ [] ∧ ∀ c ∈ piece, isBlank c = false) :
    words (spaced pieces ++ [' ']) = pieces := by
  induction pieces with
  | nil => rfl
  | cons piece pieces ih =>
    obtain ⟨⟨hne, hword⟩, hpieces⟩ := List.forall_mem_cons.mp h
    rw [spaced_cons, List.cons_append, words_cons_blank rfl, List.append_assoc,
      words_append hne hword, ih hpieces]
    intro c hc
    cases pieces with
    | nil => exact Option.some.inj hc ▸ rfl
    | cons next pieces => exact Option.some.inj hc ▸ rfl

theorem join_cons_spaced (word : List Char) (words : List (List Char)) :
    join [' '] (word :: words) = word ++ spaced words := by
  induction words generalizing word with
  | nil => rw [join_cons, if_pos rfl, spaced, List.flatMap_nil, List.append_nil]
  | cons next words ih => rw [join_cons, if_neg (List.cons_ne_nil _ _), ih, spaced_cons]

end Text

namespace Cpp

/-! ## Specifiers -/

/-- The words that may stand between a trailing return type and a body. -/
def specifierWords : List (List Char) := ["override".toList, "final".toList]

/-- What is left of a trailing return type and the specifiers behind it: of the specifiers the
last one goes, and where there is none, what the type ends with. -/
def reported (type : List Char) (specifiers : List (List Char)) : List Char :=
  if specifiers = [] then Text.dropTrails "final".toList (Text.dropTrails "override".toList type)
  else type ++ Text.spaced specifiers.dropLast

variable {type : List Char} {specifiers : List (List Char)}

/-- Of a text with a specifier behind it, the specifier is cut off and nothing else. -/
theorem trim_dropTrails_specifier {text word : List Char} (hw : word ∈ specifierWords)
    (hfirst : ∀ c, text.head? = some c → Text.isBlank c = false)
    (hlast : ∀ c, text.getLast? = some c → Text.isBlank c = false) :
    Text.trim (Text.dropTrails "final".toList (Text.dropTrails "override".toList
      (text ++ ' ' :: word))) = text := by
  have hspace : ∀ word ∈ specifierWords, ¬ word <:+ text ++ [' '] := by
    have hends : ∀ word ∈ specifierWords, ∃ front c, word = front ++ [c] ∧ c ≠ ' ' := by
      rw [specifierWords, List.forall_mem_cons, List.forall_mem_singleton]
      exact ⟨⟨"overrid".toList, 'e', rfl, by decide⟩, "fina".toList, 'l', rfl, by decide⟩
    intro word hw
    obtain ⟨front, c, rfl, hc⟩ := hends word hw
    exact Text.not_isSuffix_of_last hc front text
  rw [List.append_cons]
  simp only [specifierWords, List.mem_cons, List.not_mem_nil, or_false] at hw
  rcases hw with rfl | rfl
  · rw [Text.dropTrails_append_of_not_isSuffix (by decide) (hspace _ (by decide)),
      Text.dropTrails_of_not_isSuffix (hspace _ (by decide))]
    exact Text.trim_append_blanks (by decide) hfirst hlast
  · have hother : ¬ "override".toList <:+ text ++ [' '] ++ "final".toList := by
      have hlast := Text.not_isSuffix_of_last (by decide : 'e' ≠ 'l') "overrid".toList
        (text ++ [' '] ++ "fina".toList)
      rwa [List.append_assoc] at hlast
    rw [Text.dropTrails_of_not_isSuffix hother,
      Text.dropTrails_append_of_not_isSuffix (by decide) (hspace _ (by decide))]
    exact Text.trim_append_blanks (by decide) hfirst hlast

theorem isWord_of_mem_specifierWords {word : List Char} (hw : word ∈ specifierWords) :
    IsWord word := by
  simp only [specifierWords, List.mem_cons, List.not_mem_nil, or_false] at hw
  rcases hw with rfl | rfl
  · exact ⟨by decide, by decide +kernel⟩
  · exact ⟨by decide, by decide +kernel⟩

/-- What is recorded of a trailing return type with specifiers behind it. -/
theorem trim_dropTrails_spaced (ht : IsWord type)
    (hs : ∀ word ∈ specifiers, word ∈ specifierWords) :
    Text.trim (Text.dropTrails "final".toList (Text.dropTrails "override".toList
      (type ++ Text.spaced specifiers))) = reported type specifiers := by
  have hfirst : ∀ more : List Char, ∀ c, (type ++ more).head? = some c →
      Text.isBlank c = false := by
    intro more c hc
    obtain ⟨a, rest, rfl⟩ := List.exists_cons_of_ne_nil ht.ne_nil
    exact ht.isBlank c (Option.some.inj hc ▸ List.mem_cons_self)
  rcases List.eq_nil_or_concat specifiers with rfl | ⟨front, last, rfl⟩
  · have hfront := (Text.dropTrails_isPrefix "final".toList _).trans
      (Text.dropTrails_isPrefix "override".toList type)
    have htrim := Text.trim_append_blanks (List.forall_mem_nil _)
      (fun c hc => ht.isBlank c (hfront.subset (List.mem_of_head? hc)))
      (fun c hc => ht.isBlank c (hfront.subset (List.mem_of_getLast? hc)))
    rw [List.append_nil] at htrim
    rw [reported, if_pos rfl, Text.spaced, List.flatMap_nil, List.append_nil, htrim]
  · rw [List.concat_eq_append] at hs ⊢
    rw [Text.spaced_concat, ← List.append_assoc, reported, if_neg (by simp), List.dropLast_concat]
    refine trim_dropTrails_specifier (hs last (by simp)) (hfirst _) fun c hc => ?_
    rcases List.eq_nil_or_concat front with rfl | ⟨front, word, rfl⟩
    · rw [Text.spaced, List.flatMap_nil, List.append_nil] at hc
      exact ht.isBlank c (List.mem_of_getLast? hc)
    · have hword := isWord_of_mem_specifierWords (hs word (by simp))
      rw [List.concat_eq_append, Text.spaced_concat, ← List.append_assoc, List.append_cons,
        List.getLast?_append_of_ne_nil _ hword.ne_nil] at hc
      exact hword.isBlank c (List.mem_of_getLast? hc)

/-- The type survives behind exactly one specifier, and without any where it ends with neither of
the words. -/
theorem reported_eq_iff : reported type specifiers = type ↔ specifiers.length = 1 ∨
    specifiers = [] ∧ ∀ word ∈ specifierWords, ¬ word <:+ type := by
  rw [reported]
  split
  · next hnil =>
    subst hnil
    rw [specifierWords, List.forall_mem_cons, List.forall_mem_singleton]
    constructor
    · intro h
      have hover : Text.dropTrails "override".toList type = type := by
        refine (Text.dropTrails_isPrefix _ _).eq_of_length_le ?_
        have hle := (Text.dropTrails_isPrefix "final".toList
          (Text.dropTrails "override".toList type)).length_le
        rwa [h] at hle
      rw [hover] at h
      exact .inr ⟨rfl, (Text.dropTrails_eq_self_iff (by decide)).mp hover,
        (Text.dropTrails_eq_self_iff (by decide)).mp h⟩
    · rintro (h | ⟨-, hover, hfinal⟩)
      · cases h
      · rw [Text.dropTrails_of_not_isSuffix hover, Text.dropTrails_of_not_isSuffix hfinal]
  · next hne =>
    obtain ⟨first, more, rfl⟩ := List.exists_cons_of_ne_nil hne
    cases more with
    | nil => simp [Text.spaced]
    | cons next more => simp [Text.spaced]

end Cpp
/-! ## Behind a mark -/

namespace Statement

/-- Without colons it does not matter whether labels are in use. -/
theorem startsAfter_eq_of_notMem {before : List Char} (h : ':' ∉ before) (labels : Bool) :
    startsAfter before labels = startsAfter before false := by
  rw [startsAfter, startsAfter]
  split
  · rfl
  · next rest heq =>
    have hmem : ':' ∈ before.reverse :=
      (List.dropWhile_sublist Text.isBlank).subset (heq ▸ List.mem_cons_self)
    exact absurd (List.mem_reverse.mp hmem) h
  · rfl

end Statement

namespace Cpp

open Delimiter (balanced)
open Pattern (walled)

/-! ## Texts with nothing to hide -/

/-- A text without quotes, comments and directives shows as it is. -/
theorem views_of_plain {text : List Char}
    (h : ∀ c ∈ text, c ≠ '"' ∧ c ≠ '#' ∧ c ≠ '/' ∧ c ≠ '\'') :
    Mask.stripped .cpp text = text ∧ Mask.masked .cpp text = text := by
  have hseparates : ∀ {text : List Char} (previous : Option Char), (∀ c ∈ text, c ≠ '\'') →
      separates previous text = true := by
    intro text previous ht
    induction text generalizing previous with
    | nil => rfl
    | cons c text ih =>
      obtain ⟨hc, htext⟩ := List.forall_mem_cons.mp ht
      rw [separates, ih _ htext, bne_iff_ne.mpr hc]
      rfl
  have htints : Mask.Tints .cpp .code none (Mask.tint .plain text) .code [] :=
    tints_separated (fun c hc => ⟨(h c hc).1, (h c hc).2.1, (h c hc).2.2.1⟩)
      (hseparates none fun c hc => (h c hc).2.2.2) (by simp)
  have hview : ∀ hidden : Mask.Shade → Bool, hidden .plain = false →
      Mask.paint hidden (Mask.shades .cpp text) text = text := by
    intro hidden hplain
    have hpaint := htints.paint_eq hidden
    rw [Mask.wordOf_tint, Mask.view_tint, hplain] at hpaint
    exact hpaint
  exact ⟨hview _ rfl, hview _ rfl⟩

/-! ## The text -/

/-- A struct with one function, whose return type trails with specifiers behind it. -/
structure TrailingStruct where
  name : List Char
  type : List Char
  specifiers : List (List Char)
  name_isName : Parameter.NameOf Pattern.isNameStart Text.isWordChar name
  type_isWord : IsWord type
  known : ∀ word ∈ specifiers, word ∈ specifierWords

namespace TrailingStruct

variable (s : TrailingStruct)

theorem name_isWord : IsWord s.name := by
  obtain ⟨c, hc, -⟩ := s.name_isName.head
  exact ⟨List.ne_nil_of_mem (List.mem_of_head? hc), s.name_isName.all⟩

/-- The words behind the arrow. -/
def returned : List (List Char) := s.type :: s.specifiers

theorem isWord_of_mem_returned : ∀ word ∈ s.returned, IsWord word :=
  List.forall_mem_cons.mpr ⟨s.type_isWord, fun word hword =>
    isWord_of_mem_specifierWords (s.known word hword)⟩

/-- What stands between the parentheses of the function and its body. -/
def trailing : List Char := ' ' :: '-' :: '>' :: (Text.spaced s.returned ++ [' '])

/-- The struct up to its brace. -/
def head : List Char := "struct".toList ++ ' ' :: (s.name ++ [' '])

/-- The function, up to the brace of its body. -/
def signature : List Char := ' ' :: ("auto f(".toList ++ ')' :: s.trailing)

/-- The body of the function and the end of the struct. -/
def bodyText : List Char := " return x; \x7d \x7d;".toList

def text : List Char := s.head ++ '\x7b' :: (s.signature ++ '\x7b' :: bodyText)

/-- The text from mark to mark. -/
def pieces : List (List Char × Char) :=
  [(s.head, '\x7b'), (s.signature, '\x7b'), (" return x".toList, ';'), ([' '], '\x7d'),
    ([' '], '\x7d'), ([], ';')]

theorem text_eq_walled : s.text = walled s.pieces := by
  have hbody : bodyText = walled [(" return x".toList, ';'), ([' '], '\x7d'), ([' '], '\x7d'),
    ([], ';')] := by decide
  rw [text, hbody]
  simp [pieces, walled]

theorem width_head : Text.width s.head = 7 + Text.width s.name + 1 := by
  have hsix : Text.width "struct".toList = 6 := by decide
  have hspace : Text.width (' ' :: (s.name ++ [' '])) = 1 + (Text.width s.name + 1) := by
    rw [Text.width_cons, Text.width_append]
    rfl
  rw [head, Text.width_append, hsix, hspace]
  omega

/-! ## Characters -/

/-- The characters that end statements or open and close blocks. -/
def marks : List Char := ['\x7b', '\x7d', ';']

/-- The characters between them. -/
def isInner (c : Char) : Bool := Text.isWordChar c || [' ', '(', ')', '-', '>'].contains c

theorem isInner_of_isWord {word : List Char} (h : IsWord word) : ∀ c ∈ word, isInner c = true :=
  fun c hc => Bool.or_eq_true_iff.mpr (.inl (h.isWordChar c hc))

theorem isInner_head : ∀ c ∈ s.head, isInner c = true := by
  have hstruct : ∀ c ∈ "struct".toList, isInner c = true := by decide +kernel
  have hspace : isInner ' ' = true := by decide +kernel
  have hname := List.forall_mem_append.mpr ⟨isInner_of_isWord s.name_isWord,
    List.forall_mem_singleton.mpr hspace⟩
  exact List.forall_mem_append.mpr ⟨hstruct, List.forall_mem_cons.mpr ⟨hspace, hname⟩⟩

theorem mem_trailing {c : Char} (h : c ∈ s.trailing) :
    Text.isWordChar c = true ∨ c ∈ [' ', '-', '>'] := by
  simp only [trailing, List.mem_cons, List.mem_append, List.not_mem_nil, or_false] at h
  rcases h with rfl | rfl | rfl | h | rfl
  · exact .inr (by decide)
  · exact .inr (by decide)
  · exact .inr (by decide)
  · rcases Text.eq_space_or_mem_of_mem_spaced h with rfl | ⟨word, hword, hc⟩
    · exact .inr (by decide)
    · exact .inl ((s.isWord_of_mem_returned word hword).isWordChar c hc)
  · exact .inr (by decide)

theorem isInner_signature : ∀ c ∈ s.signature, isInner c = true := by
  have hfunction : ∀ c ∈ "auto f(".toList, isInner c = true := by decide +kernel
  have hmarks : ∀ c ∈ [' ', '-', '>', ')'], isInner c = true := by decide +kernel
  have htrailing : ∀ c ∈ s.trailing, isInner c = true := fun c hc =>
    (s.mem_trailing hc).elim (fun hword => Bool.or_eq_true_iff.mpr (.inl hword)) fun hmark =>
      hmarks c (List.mem_of_mem_dropLast hmark)
  exact List.forall_mem_cons.mpr ⟨hmarks ' ' (by decide), List.forall_mem_append.mpr ⟨hfunction,
    List.forall_mem_cons.mpr ⟨hmarks ')' (by decide), htrailing⟩⟩⟩

theorem isInner_pieces :
    ∀ piece ∈ s.pieces, (∀ c ∈ piece.1, isInner c = true) ∧ piece.2 ∈ marks := by
  have hbody : ∀ piece ∈ [(" return x".toList, ';'), ([' '], '\x7d'), ([' '], '\x7d'), ([], ';')],
      (∀ c ∈ piece.1, isInner c = true) ∧ piece.2 ∈ marks := by decide +kernel
  have hbrace : '\x7b' ∈ marks := by decide
  exact List.forall_mem_cons.mpr ⟨⟨s.isInner_head, hbrace⟩,
    List.forall_mem_cons.mpr ⟨⟨s.isInner_signature, hbrace⟩, hbody⟩⟩

theorem notMem_of_isInner {c : Char} (h : isInner c = false) {text : List Char}
    (ht : ∀ c ∈ text, isInner c = true) : c ∉ text := by
  intro hmem
  rw [ht c hmem] at h
  cases h

theorem notMem_head : '(' ∉ s.head := by
  have hstruct : '(' ∉ "struct".toList := by decide
  have hname : '(' ∉ s.name := s.name_isWord.notMem (by decide +kernel)
  rw [head, List.mem_append, List.mem_cons, List.mem_append, List.mem_singleton]
  rintro (hmem | hmem | hmem | hmem)
  · exact hstruct hmem
  · cases hmem
  · exact hname hmem
  · cases hmem

theorem notMem_trailing : '(' ∉ s.trailing := fun hmem =>
  (s.mem_trailing hmem).elim (absurd · (by decide +kernel)) (absurd · (by decide))

theorem notMem_text {c : Char} (h : isInner c = false) (hm : c ∉ marks) : c ∉ s.text := by
  intro hmem
  rw [s.text_eq_walled] at hmem
  obtain ⟨piece, hpiece, hmem⟩ := List.mem_flatMap.mp hmem
  obtain ⟨hinner, hmark⟩ := s.isInner_pieces piece hpiece
  rcases List.mem_append.mp hmem with hmem | hmem
  · exact notMem_of_isInner h hinner hmem
  · exact hm (List.mem_singleton.mp hmem ▸ hmark)

/-- The only blanks of the text are spaces. -/
theorem eq_space_of_mem {c : Char} (h : c ∈ s.text) (hc : Text.isBlank c = true) : c = ' ' := by
  have hothers : ∀ other ∈ ['(', ')', '-', '>'] ++ marks, Text.isBlank other = false := by decide
  by_contra hne
  refine s.notMem_text ?_ (fun hm => ?_) h
  · rw [isInner, Text.isWordChar_eq_false_of_isBlank hc, Bool.false_or, List.contains_eq_mem,
      decide_eq_false_iff_not, List.mem_cons, not_or]
    refine ⟨hne, fun hmem => ?_⟩
    rw [hothers c (List.mem_append_left _ hmem)] at hc
    cases hc
  · rw [hothers c (List.mem_append_right _ hm)] at hc
    cases hc

theorem notMem_pieces {mark : Char} (hm : mark ∈ marks) : ∀ piece ∈ s.pieces, mark ∉ piece.1 := by
  have hmarks : ∀ mark ∈ marks, isInner mark = false := by decide +kernel
  exact fun piece hpiece => notMem_of_isInner (hmarks mark hm) (s.isInner_pieces piece hpiece).1

/-! ## Statements -/

/-- Blanks aside, a statement starts with the first letter of a word of the text or with a mark. -/
theorem first_of_startsAfter {a rest : List Char} {c : Char} (h : s.text = a ++ c :: rest)
    (hc : Text.isBlank c = false) (hs : Statement.startsAfter a true = true) :
    a = [] ∨ c ∈ ['a', 'r', '\x7d', ';'] := by
  have hcolon : ':' ∉ a := fun hmem =>
    s.notMem_text (by decide +kernel) (by decide) (h ▸ List.mem_append_left _ hmem)
  rw [Statement.startsAfter_eq_of_notMem hcolon] at hs
  rcases Statement.exists_of_startsAfter hs with hblank | ⟨front, mark, blanks, rfl, hmark, hblank⟩
  · cases a with
    | nil => exact .inl rfl
    | cons x a =>
      obtain ⟨rfl, -⟩ := List.cons.inj (show 's' :: _ = x :: _ from h)
      exact absurd (hblank 's' List.mem_cons_self) (by decide)
  · refine .inr ?_
    rw [List.append_assoc, List.cons_append, s.text_eq_walled] at h
    obtain ⟨earlier, piece, later, hpieces, hrest⟩ :=
      Pattern.exists_of_walled (s.notMem_pieces hmark) h
    -- What stands behind the blanks is the first letter of the pieces that are left.
    have hfirst : ((walled later).dropWhile Text.isBlank).head? = some c := by
      rw [← hrest, List.dropWhile_append_of_pos hblank, List.dropWhile_cons_of_neg (by simp [hc])]
      rfl
    have hlater : later <:+ s.pieces.tail := by
      cases earlier with
      | nil =>
        rw [hpieces]
        exact List.suffix_refl later
      | cons first earlier =>
        rw [hpieces]
        exact ⟨earlier ++ [piece], by simp⟩
    simp only [pieces, List.tail_cons, List.suffix_cons_iff, List.suffix_nil] at hlater
    rcases hlater with rfl | rfl | rfl | rfl | rfl | rfl
    all_goals first | exact Option.some.inj hfirst ▸ by decide | exact nomatch hfirst

/-! ## Views -/

/-- All views of a subject are the text, and hide nothing of it. -/
structure Shown (subject : Subject) : Prop where
  of : subject.Of s.text
  text : subject.source.text = s.text
  stripped : subject.source.stripped = s.text
  masked : subject.masked = s.text
  braces : subject.source.braces = .ofText s.text

theorem views_text : Mask.stripped .cpp s.text = s.text ∧ Mask.masked .cpp s.text = s.text :=
  views_of_plain fun c hc => by
    refine ⟨?_, ?_, ?_, ?_⟩ <;>
      (rintro rfl; exact s.notMem_text (by decide +kernel) (by decide) hc)

theorem shown_subject : s.Shown (language.subject s.text) := by
  obtain ⟨hstripped, hmasked⟩ := s.views_text
  exact ⟨language.subject_of _, rfl, hstripped, hmasked, congrArg BraceIndex.ofText hmasked⟩

/-! ## Groups -/

theorem balanced_of_isInner {text : List Char} (h : ∀ c ∈ text, isInner c = true) :
    balanced '\x7b' '\x7d' text = true :=
  Delimiter.balanced_of_not_mem (notMem_of_isInner (by decide +kernel) h)
    (notMem_of_isInner (by decide +kernel) h)

end TrailingStruct

end Cpp
end Outline
