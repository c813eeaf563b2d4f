import Outline.Proofs.Declaration.LineCheck
import Outline.Proofs.Declaration.TypeText
import Outline.Proofs.Extraction.Java.Front
import Outline.Proofs.Extraction.Java.Reading
import Outline.Proofs.Extraction.Statement
import Outline.Proofs.Pattern.Sweep
import Outline.Proofs.Source.Balanced

/-!
# The text of a class with a method on every line

The text is written line by line, and no line of it gives a hint.  It is read from wall to wall:
the walls are the braces, parentheses and semicolons that no declaration reads on its way.  Its
braces are balanced, and nothing in it is hidden.
-/

namespace Outline
namespace Java

open Delimiter (balanced)
open Parameter (IsIdent isIdentChar)
open Pattern (walled)

/-! ## The text -/

/-- A class up to its brace. -/
def classHead (className : List Char) : List Char := "public class ".toList ++ className ++ [' ']

theorem classHead_eq (className : List Char) :
    classHead className = "public class ".toList ++ className ++ [' '] := rfl

/-- A method that returns its parameter, on a line of its own. -/
def methodRow (name : List Char) : List Char :=
  "    public int ".toList ++ name ++ "(int x) \x7b return x; \x7d".toList

theorem methodRow_eq (name : List Char) : methodRow name =
    "    public int ".toList ++ name ++ "(int x) \x7b return x; \x7d".toList := rfl

/-- The lines of a class with such methods. -/
def rows (className : List Char) (names : List (List Char)) : List (List Char) :=
  (classHead className ++ ['\x7b']) :: (names.map methodRow ++ [['\x7d']])

/-- A class with a method on every line of its body. -/
def classText (className : List Char) (names : List (List Char)) : List Char :=
  (rows className names).flatMap (· ++ ['\n'])

/-! ## From wall to wall -/

/-- The blanks in front of a method. -/
def indent : List Char := ['\n', ' ', ' ', ' ', ' ']

/-- What stands behind the name of a method. -/
def bodyText : List Char := "(int x) \x7b return x; \x7d".toList

theorem bodyText_eq : bodyText = "(int x) \x7b return x; \x7d".toList := rfl

/-- A method with the blanks in front of it. -/
def member (name : List Char) : List Char := indent ++ ("public int ".toList ++ (name ++ bodyText))

theorem member_eq (name : List Char) :
    member name = indent ++ ("public int ".toList ++ (name ++ bodyText)) := rfl

/-- What stands behind the name of a method, from wall to wall. -/
def bodyPieces : List (List Char × Char) :=
  [("int x".toList, ')'), ([' '], '\x7b'), (" return x".toList, ';'), ([' '], '\x7d')]

theorem bodyText_eq_walled : bodyText = '(' :: walled bodyPieces := by decide

/-- A method from wall to wall. -/
def memberPieces (name : List Char) : List (List Char × Char) :=
  ("\n    public int ".toList ++ name, '(') :: bodyPieces

theorem walled_memberPieces (name : List Char) : walled (memberPieces name) = member name := by
  rw [member_eq, bodyText_eq_walled, memberPieces, walled, List.flatMap_cons, ← walled]
  simp [indent]

/-- The class up to some of its methods. -/
def front (className : List Char) (earlier : List (List Char)) : List Char :=
  classHead className ++ '\x7b' :: earlier.flatMap member

/-- The class from some of its methods on. -/
def behind (later : List (List Char)) : List Char := later.flatMap member ++ ['\n', '\x7d', '\n']

theorem front_concat (className : List Char) (earlier : List (List Char)) (name : List Char) :
    front className (earlier ++ [name]) = front className earlier ++ member name := by
  rw [front, front, List.flatMap_append, List.flatMap_singleton, List.append_assoc,
    List.cons_append]

theorem behind_cons (name : List Char) (later : List (List Char)) :
    behind (name :: later) = member name ++ behind later := by
  rw [behind, behind, List.flatMap_cons, List.append_assoc]

theorem classText_eq (className : List Char) (names : List (List Char)) :
    classText className names = classHead className ++ '\x7b' :: behind names := by
  have hrow : ∀ name, '\n' :: methodRow name = member name := by
    intro name
    rw [methodRow_eq, member_eq, bodyText_eq]
    simp [indent]
  have hrows : '\n' :: ((names.map methodRow ++ [['\x7d']]).flatMap (· ++ ['\n'])) =
      behind names := by
    induction names with
    | nil => rfl
    | cons name names ih =>
      rw [List.map_cons, List.cons_append, List.flatMap_cons, behind_cons, ← ih, ← hrow]
      simp only [List.append_assoc, List.cons_append, List.nil_append]
  rw [classText, rows, List.flatMap_cons, ← hrows]
  simp only [List.append_assoc, List.cons_append, List.nil_append]

/-- The class in front of some of its methods, and the rest of it. -/
theorem front_append_behind (className : List Char) (earlier later : List (List Char)) :
    front className earlier ++ behind later = classText className (earlier ++ later) := by
  rw [classText_eq, front, behind, behind, List.flatMap_append]
  simp only [List.append_assoc, List.cons_append]

variable {className name : List Char} {names earlier later : List (List Char)}

/-! ## Characters -/

theorem not_mem_of_isIdent (hn : IsIdent name) {c : Char} (hc : isIdentChar c = false) :
    c ∉ name := by
  intro hmem
  rw [hn.all c hmem] at hc
  exact nomatch hc

/-- Between walls a name may stand among other texts. -/
theorem not_mem_around (hn : IsIdent name) {lead trail : List Char} {c : Char}
    (hlead : c ∉ lead) (htrail : c ∉ trail) (hc : isIdentChar c = false) :
    c ∉ lead ++ name ++ trail := by
  simp only [List.mem_append, not_or]
  exact ⟨⟨hlead, not_mem_of_isIdent hn hc⟩, htrail⟩

theorem balanced_around (hn : IsIdent name) {lead trail : List Char} {opening closing : Char}
    (hopen : opening ∉ lead ∧ opening ∉ trail) (hclose : closing ∉ lead ∧ closing ∉ trail)
    (hchars : isIdentChar opening = false ∧ isIdentChar closing = false) :
    balanced opening closing (lead ++ name ++ trail) = true :=
  Delimiter.balanced_of_not_mem (not_mem_around hn hopen.1 hopen.2 hchars.1)
    (not_mem_around hn hclose.1 hclose.2 hchars.2)

/-- The characters of a class with plain methods. -/
def isClassChar (c : Char) : Bool :=
  isIdentChar c || [' ', '\n', '(', ')', '\x7b', '\x7d', ';'].contains c

theorem isClassChar_around (hn : IsIdent name) {lead trail : List Char}
    (hlead : ∀ c ∈ lead, isClassChar c = true) (htrail : ∀ c ∈ trail, isClassChar c = true) :
    ∀ c ∈ lead ++ name ++ trail, isClassChar c = true := by
  intro c hc
  rw [List.mem_append, List.mem_append] at hc
  rcases hc with (hc | hc) | hc
  · exact hlead c hc
  · exact Bool.or_eq_true_iff.mpr (.inl (hn.all c hc))
  · exact htrail c hc

theorem mem_rows {row : List Char} (h : row ∈ rows className names) :
    row = classHead className ++ ['\x7b'] ∨ (∃ name ∈ names, row = methodRow name) ∨
      row = ['\x7d'] := by
  rw [rows, List.mem_cons, List.mem_append, List.mem_map, List.mem_singleton] at h
  rcases h with h | ⟨name, hname, rfl⟩ | h
  · exact .inl h
  · exact .inr (.inl ⟨name, hname, rfl⟩)
  · exact .inr (.inr h)

theorem isClassChar_classText (hC : IsIdent className) (hn : ∀ name ∈ names, IsIdent name) :
    ∀ c ∈ classText className names, isClassChar c = true := by
  intro c hc
  obtain ⟨row, hrow, hc⟩ := List.mem_flatMap.mp hc
  rcases List.mem_append.mp hc with hc | hc
  · rcases mem_rows hrow with rfl | ⟨name, hname, rfl⟩ | rfl
    · rw [classHead_eq, List.append_assoc] at hc
      exact isClassChar_around hC (by decide) (by decide) c hc
    · rw [methodRow_eq] at hc
      exact isClassChar_around (hn name hname) (by decide) (by decide) c hc
    · rw [List.mem_singleton.mp hc]
      rfl
  · rw [List.mem_singleton.mp hc]
    rfl

theorem isBare_classText (hC : IsIdent className) (hn : ∀ name ∈ names, IsIdent name) :
    Text.isBare (classText className names) = true := by
  rw [← List.append_nil (classText className names)]
  refine Text.isBare_append_of_forall (fun c hc => ?_) rfl
  have hchar := isClassChar_classText hC hn c hc
  refine ⟨?_, ?_, ?_⟩ <;> (rintro rfl; exact absurd hchar (by decide))

/-! ## Lines -/

theorem quiet_row (hC : IsIdent className) (hn : ∀ name ∈ names, IsIdent name)
    {row : List Char} (h : row ∈ rows className names) :
    '\n' ∉ row ∧ LineCheck.QuietLine row := by
  rcases mem_rows h with rfl | ⟨name, hname, rfl⟩ | rfl
  · refine ⟨?_, ?_, classHead className, '\x7b', rfl, rfl, rfl⟩
    · rw [classHead_eq, List.append_assoc]
      exact not_mem_around hC (by decide) (by decide) rfl
    · rw [classHead_eq, List.append_assoc]
      exact balanced_around hC (by decide) (by decide) (by decide)
  · have hident := hn name hname
    rw [methodRow_eq]
    refine ⟨not_mem_around hident (by decide) (by decide) rfl, ?_,
      "    public int ".toList ++ name ++ "(int x) \x7b return x; ".toList, '\x7d', by simp, rfl, rfl⟩
    have hhead : balanced '(' ')' ("    public int ".toList ++ name ++ []) = true :=
      balanced_around hident (by decide) (by decide) (by decide)
    rw [List.append_nil] at hhead
    exact Delimiter.balanced_append hhead (by decide)
  · exact ⟨by decide, by decide, [], '\x7d', rfl, rfl, rfl⟩

/-- No line of the text gives a hint. -/
theorem check_classText (hC : IsIdent className) (hn : ∀ name ∈ names, IsIdent name)
    (rules : LineRules) : LineCheck.check rules (classText className names) = ⟨[], []⟩ :=
  LineCheck.check_of_quiet (fun _ hrow => (quiet_row hC hn hrow).1)
    (fun _ hrow => (quiet_row hC hn hrow).2) rules

/-! ## Braces and line feeds -/

theorem balanced_classHead (hC : IsIdent className) :
    balanced '\x7b' '\x7d' (classHead className) = true := by
  rw [classHead_eq]
  exact balanced_around hC (by decide) (by decide) (by decide)

theorem balanced_member (hn : IsIdent name) : balanced '\x7b' '\x7d' (member name) = true := by
  have hhead : balanced '\x7b' '\x7d' (indent ++ "public int ".toList ++ name ++ []) = true :=
    balanced_around hn (by decide) (by decide) (by decide)
  rw [List.append_nil] at hhead
  rw [member_eq, ← List.append_assoc, ← List.append_assoc]
  exact Delimiter.balanced_append hhead (by decide)

theorem balanced_members (hn : ∀ name ∈ names, IsIdent name) {trail : List Char}
    (ht : balanced '\x7b' '\x7d' trail = true) :
    balanced '\x7b' '\x7d' (names.flatMap member ++ trail) = true :=
  Delimiter.balanced_append (Delimiter.balanced_flatMap fun name hname =>
    balanced_member (hn name hname)) ht

theorem count_feed_of_isIdent (hn : IsIdent name) : name.count '\n' = 0 :=
  List.count_eq_zero.mpr (not_mem_of_isIdent hn rfl)

theorem count_feed_classHead (hC : IsIdent className) : (classHead className).count '\n' = 0 := by
  rw [classHead_eq]
  exact List.count_eq_zero.mpr (not_mem_around hC (by decide) (by decide) rfl)

theorem count_feed_members (hn : ∀ name ∈ names, IsIdent name) :
    (names.flatMap member).count '\n' = names.length := by
  induction names with
  | nil => rfl
  | cons name names ih =>
    have hmember : (member name).count '\n' = 1 := by
      rw [member_eq, List.count_append, List.count_append, List.count_append,
        count_feed_of_isIdent (hn name List.mem_cons_self)]
      decide
    rw [List.flatMap_cons, List.count_append, hmember,
      ih fun other ho => hn other (List.mem_cons_of_mem _ ho), List.length_cons, Nat.add_comm]

/-! ## In front of a method -/

/-- What stands in front of a method. -/
def lead (className : List Char) (earlier : List (List Char)) : List Char :=
  front className earlier ++ indent

theorem lead_eq (className : List Char) (earlier : List (List Char)) :
    lead className earlier = classHead className ++ '\x7b' :: (earlier.flatMap member ++ indent) := by
  rw [lead, front, List.append_assoc, List.cons_append]

theorem classText_eq_lead (className : List Char) (earlier : List (List Char)) (name : List Char)
    (later : List (List Char)) : classText className (earlier ++ name :: later) =
      lead className earlier ++ ("public int ".toList ++ (name ++ (bodyText ++ behind later))) := by
  rw [← front_append_behind, behind_cons, member_eq, lead]
  simp only [List.append_assoc]

theorem count_feed_lead (hC : IsIdent className) (hn : ∀ name ∈ earlier, IsIdent name) :
    (lead className earlier).count '\n' = earlier.length + 1 := by
  rw [lead_eq, List.count_append, count_feed_classHead hC, List.count_cons_of_ne (by decide),
    List.count_append, count_feed_members hn, Nat.zero_add]
  rfl

/-- What stands in front of a method ends with the brace of the class or of another method. -/
theorem exists_mark_of_front (className : List Char) (earlier : List (List Char)) :
    ∃ before mark, mark ∈ ['\x7b', '\x7d', ';'] ∧ front className earlier = before ++ [mark] := by
  rcases List.eq_nil_or_concat earlier with rfl | ⟨earlier, name, rfl⟩
  · exact ⟨classHead className, '\x7b', by simp, rfl⟩
  · have hbody : bodyText = "(int x) \x7b return x; ".toList ++ ['\x7d'] := by decide
    refine ⟨front className earlier ++ (indent ++ ("public int ".toList ++
      (name ++ "(int x) \x7b return x; ".toList))), '\x7d', by simp, ?_⟩
    rw [List.concat_eq_append, front_concat, member_eq, hbody]
    simp only [List.append_assoc]

theorem startsAfter_lead (className : List Char) (earlier : List (List Char)) :
    Statement.startsAfter (lead className earlier) false = true := by
  obtain ⟨before, mark, hmark, hfront⟩ := exists_mark_of_front className earlier
  rw [lead, hfront, List.append_assoc]
  exact Statement.startsAfter_of_mark hmark before (by decide) false

end Java
end Outline

/-!
## What the patterns find in a class with plain methods

The text is swept from wall to wall: the class is found at its start, a method on every line
behind it, and a statement that looks like a field in every method.
-/

namespace Outline
namespace Java

open Parameter (IsIdent isIdentChar)
open Pattern (Misses walled)

variable {p : Pattern} {className name : List Char} {earlier later names : List (List Char)}

/-! ### Stretches -/

/-- What is missed between the walls of every method is missed in the whole rest of a class. -/
theorem misses_behind (hc : p.consumes = true) (hfeed : p.avoids '\n' = true)
    (h : ∀ name ∈ later, ∀ piece ∈ memberPieces name, ∀ rest, p.Misses (piece.1 ++ [piece.2]) rest)
    (hclose : ∀ rest, p.Misses ['\n', '\x7d'] rest) : p.Misses (behind later) [] := by
  induction later with
  | nil =>
    refine Misses.append (a := ['\n', '\x7d']) (hclose _) (Pattern.misses_of_avoids hc fun a ha => ?_)
    rwa [List.mem_singleton.mp ha]
  | cons name later ih =>
    rw [behind_cons, ← walled_memberPieces]
    refine (Pattern.misses_walled (h name List.mem_cons_self) _).append (ih fun other ho => ?_)
    exact h other (List.mem_cons_of_mem _ ho)

theorem forall_memberPieces {P : List Char × Char → Prop}
    (hhead : P ("\n    public int ".toList ++ name, '(')) (hbody : ∀ piece ∈ bodyPieces, P piece) :
    ∀ piece ∈ memberPieces name, P piece :=
  List.forall_mem_cons.mpr ⟨hhead, hbody⟩

/-! ### Packages and imports -/

/-- What a semicolon must end is not found in a class whose only statements return values. -/
theorem findAll_ended (wanted : Char) (hspares : ∀ wall ∈ walls, p.spares wall = true)
    (hwanted : p.needs wanted = true) (hreturn : wanted ∉ " return x".toList)
    (hc : p.consumes = true) (hfeed : p.avoids '\n' = true) (hC : IsIdent className)
    (hn : ∀ name ∈ names, IsIdent name) :
    (p ++ .lit ";").findAll (classText className names) = [] := by
  have hmiss : ∀ u wall rest, wall ∈ walls → wanted ∉ u ∨ ';' ∉ u ++ [wall] →
      (p ++ .lit ";").Misses (u ++ [wall]) rest :=
    fun u wall rest hwall h => misses_ended (hspares wall hwall) hwanted h
  have hhead : ∀ rest, (p ++ .lit ";").Misses (classHead className ++ ['\x7b']) rest := by
    refine fun rest => hmiss _ _ _ (by decide) (.inr ?_)
    rw [classHead_eq, List.append_assoc]
    exact not_mem_around hC (by decide) (by decide) rfl
  have hpiece : ∀ name ∈ names, ∀ piece ∈ memberPieces name, ∀ rest,
      (p ++ .lit ";").Misses (piece.1 ++ [piece.2]) rest := by
    intro name hname
    refine forall_memberPieces (fun rest => hmiss _ '(' _ (by decide) (.inr ?_)) ?_
    · show ';' ∉ "\n    public int ".toList ++ name ++ ['(']
      exact not_mem_around (hn name hname) (by decide) (by decide) rfl
    · have hall : ∀ piece ∈ bodyPieces, piece.2 ∈ walls ∧
          (piece.1 = " return x".toList ∨ ';' ∉ piece.1 ++ [piece.2]) := by decide
      intro piece hp rest
      refine hmiss _ _ _ (hall piece hp).1 ((hall piece hp).2.imp_left fun h => ?_)
      rwa [h]
  have hclose : ∀ rest, (p ++ .lit ";").Misses ['\n', '\x7d'] rest := fun rest =>
    hmiss ['\n'] '\x7d' rest (by decide) (.inr (by decide))
  have hconsumes : (p ++ .lit ";").consumes = true := Bool.or_eq_true_iff.mpr (.inl hc)
  rw [classText_eq, List.append_cons]
  refine ((hhead _).append (misses_behind hconsumes ?_ hpiece hclose)).findAll hconsumes
  rw [show (p ++ Pattern.lit ";").avoids '\n' = (p.avoids '\n' && (p.consumes || _)) from rfl, hfeed, hc]
  rfl

theorem findAll_package (hC : IsIdent className) (hn : ∀ name ∈ names, IsIdent name) :
    packagePattern.findAll (classText className names) = [] :=
  findAll_ended 'k' (by decide) rfl (by decide) rfl rfl hC hn

theorem findAll_import (hC : IsIdent className) (hn : ∀ name ∈ names, IsIdent name) :
    importPattern.findAll (classText className names) = [] :=
  findAll_ended 'm' (by decide) rfl (by decide) rfl rfl hC hn

/-! ### The class -/

/-- A text of which the last character is no part of what follows holds it whole. -/
theorem infix_of_infix_append {a b word : List Char} {last : Char} (hlast : last ∉ b)
    (h : word ++ [last] <:+: a ++ b) : word ++ [last] <:+: a := by
  obtain ⟨x, y, h⟩ := h
  rcases List.append_eq_append_iff.mp h with ⟨v, rfl, -⟩ | ⟨v, hv, rfl⟩
  · exact ⟨x, v, rfl⟩
  · rcases List.eq_nil_or_concat v with rfl | ⟨w, c, rfl⟩
    · exact ⟨x, [], by rw [List.append_nil]; rwa [List.append_nil] at hv⟩
    · rw [List.concat_eq_append, ← List.append_assoc, ← List.append_assoc] at hv
      obtain rfl : last = c := by simpa using (List.append_inj' hv rfl).2
      exact absurd (by simp) hlast

/-- Whether every word for a kind has a letter that a text lacks. -/
def lacksKinds (text : List Char) : Bool :=
  kindWords.all fun word => word.toList.any fun c => !(text.contains c)

/-- No type starts where some letter of every word for a kind is missing, up to a name. -/
theorem misses_type_of_letters {a b rest : List Char} {wall : Char} (hwall : wall ∈ walls)
    (hat : '@' ∉ a ++ b) (hb : ∀ c ∈ b, Text.isBlank c = false)
    (h : lacksKinds a = true) :
    typePattern.Misses (a ++ b ++ [wall]) rest := by
  refine misses_type hwall hat fun word hword blank hblank hin => ?_
  have hnot : blank ∉ b := fun hmem => absurd (hb blank hmem) (by simp [hblank])
  obtain ⟨c, hc, hmissing⟩ := List.any_eq_true.mp (List.all_eq_true.mp h word hword)
  obtain ⟨x, y, hxy⟩ := infix_of_infix_append hnot hin
  have hmem : c ∈ a := hxy ▸ by simp [hc]
  simp [hmem] at hmissing

/-- The class is the only type in its text. -/
theorem findAll_type (hC : IsIdent className) (hn : ∀ name ∈ names, IsIdent name) :
    ∃ found, typePattern.findAll (classText className names) = [found] ∧ found.start = 0 ∧
      found.part? .name = some ⟨13, className⟩ ∧ found.text .kind = "class".toList ∧
      found.text .modifiers = "public ".toList ∧
      ∃ declaration, found.part? .declaration = some declaration ∧ declaration.start = 0 := by
  let rest := '\x7b' :: behind names
  have hspace : ∀ c, (' ' :: rest).head? = some c → Parameter.isDollarChar c = false :=
    fun _ hc => Option.some.inj hc ▸ rfl
  obtain ⟨found, hmatch, hstart, hstop, hname, hkind, hmodifiers, hdeclaration⟩ :=
    matchAt_class none 0 ["public"] (by decide) (isDollarName_of_isIdent hC) hspace
  have hpublic : modifiersText ["public"] = "public ".toList := rfl
  rw [hpublic] at hmatch hstop hname hmodifiers
  have htext : classText className names =
      "public ".toList ++ ("class ".toList ++ className) ++ ([' ', '\x7b'] ++ behind names) := by
    rw [classText_eq, classHead_eq]
    simp
  have hpiece : ∀ name ∈ names, ∀ piece ∈ memberPieces name, ∀ rest,
      typePattern.Misses (piece.1 ++ [piece.2]) rest := by
    intro name hname
    have hident := hn name hname
    refine forall_memberPieces (fun rest => ?_) ?_
    · show typePattern.Misses ("\n    public int ".toList ++ name ++ ['(']) rest
      refine misses_type_of_letters (by decide) ?_
        (fun c hc => Parameter.isBlank_of_isIdentChar (hident.all c hc)) (by decide)
      rw [← List.append_nil (_ ++ name)]
      exact not_mem_around hident (by decide) (by decide) rfl
    · have hall : ∀ piece ∈ bodyPieces, piece.2 ∈ walls ∧ '@' ∉ piece.1 ++ [] ∧
          lacksKinds piece.1 = true := by decide
      intro piece hp rest
      obtain ⟨hwall, hat, hletters⟩ := hall piece hp
      rw [← List.append_nil piece.1]
      exact misses_type_of_letters hwall hat (by simp) hletters
  have hclose : ∀ rest, typePattern.Misses (['\n'] ++ [] ++ ['\x7d']) rest := fun rest =>
    misses_type_of_letters (by decide) (by decide) (by simp) (by decide)
  have hbrace : typePattern.Misses ([' '] ++ [] ++ ['\x7b']) (behind names ++ []) :=
    misses_type_of_letters (by decide) (by decide) (by simp) (by decide)
  have hmissed := hbrace.append (misses_behind rfl (by decide) hpiece hclose)
  refine ⟨found, ?_, hstart, hname, hkind, hmodifiers, hdeclaration⟩
  rw [htext, Pattern.findAll, Pattern.findAllFrom_of_matchAt (Nat.le_refl 0) (by simp) ?_ hstop]
  · exact congrArg (found :: ·) (hmissed.findAllFrom_eq_nil rfl)
  · simpa [rest] using hmatch

/-! ### Fields -/

/-- A method up to the statement that returns a value. -/
def returnPieces (name : List Char) : List (List Char × Char) :=
  [("\n    public int ".toList ++ name, '('), ("int x".toList, ')'), ([' '], '\x7b')]

theorem member_eq_return (name : List Char) :
    member name = walled (returnPieces name) ++ [' '] ++ ("return x;".toList ++ [' ', '\x7d']) := by
  rw [← walled_memberPieces]
  simp [memberPieces, bodyPieces, returnPieces, walled]

theorem type_of_mem_behind (hn : ∀ name ∈ later, IsIdent name) {resume offset : Nat}
    {previous : Option Char} (hle : resume ≤ offset) :
    ∀ found ∈ fieldPattern.findAllFrom resume previous offset (behind later),
      found.text .type = "return".toList := by
  induction later generalizing resume offset previous with
  | nil =>
    have hmiss : fieldPattern.Misses (behind []) [] :=
      misses_behind rfl (by decide) nofun fun rest =>
        show fieldPattern.Misses (['\n'] ++ ['\x7d']) rest from
          misses_field (by decide) (by decide) (by decide)
    rw [hmiss.findAllFrom_eq_nil rfl]
    nofun
  | cons name later ih =>
    have hident := hn name List.mem_cons_self
    have hpieces : ∀ piece ∈ returnPieces name, ∀ rest,
        fieldPattern.Misses (piece.1 ++ [piece.2]) rest := by
      rw [returnPieces, List.forall_mem_cons]
      constructor
      · intro rest
        show fieldPattern.Misses ("\n    public int ".toList ++ name ++ ['(']) rest
        refine misses_field (by decide) ?_ fun stop hstop => ?_
        · rw [← List.append_nil (_ ++ name)]
          exact not_mem_around hident (by decide) (by decide) rfl
        · have hall : ∀ stop ∈ fieldStops, stop ∉ "\n    public int ".toList ∧ stop ∉ ['('] ∧
              isIdentChar stop = false := by decide
          obtain ⟨hlead, htrail, hchar⟩ := hall stop hstop
          exact not_mem_around hident hlead htrail hchar
      · have hall : ∀ piece ∈ [("int x".toList, ')'), ([' '], '\x7b')], piece.2 ∈ walls ∧
            '@' ∉ piece.1 ∧ ∀ stop ∈ fieldStops, stop ∉ piece.1 ++ [piece.2] := by decide
        exact fun piece hp rest => misses_field (hall piece hp).1 (hall piece hp).2.1 (hall piece hp).2.2
    have hspace : ∀ rest, fieldPattern.Misses [' '] rest := fun rest =>
      Pattern.misses_of_avoids rfl (by decide)
    have hclose : ∀ rest, fieldPattern.Misses [' ', '\x7d'] rest := fun rest =>
      show fieldPattern.Misses ([' '] ++ ['\x7d']) rest from
        misses_field (by decide) (by decide) (by decide)
    have hsplit : member name ++ behind later = walled (returnPieces name) ++ [' '] ++
        ("return x;".toList ++ ([' ', '\x7d'] ++ behind later)) := by
      rw [member_eq_return]
      simp only [List.append_assoc]
    rw [behind_cons, hsplit, ((Pattern.misses_walled hpieces _).append (hspace _)).findAllFrom]
    obtain ⟨found, hmatch, hstop, type, htype, htext⟩ := matchAt_return
      ((walled (returnPieces name) ++ [' ']).getLast?.or previous)
      (offset + Text.width (walled (returnPieces name) ++ [' '])) ([' ', '\x7d'] ++ behind later)
    rw [Pattern.findAllFrom_of_matchAt (by omega) (by decide) hmatch hstop, (hclose _).findAllFrom]
    refine List.forall_mem_cons.mpr ⟨by rw [Match.text, htype]; exact htext, ?_⟩
    refine ih (fun other ho => hn other (List.mem_cons_of_mem _ ho)) ?_
    rw [hstop]
    exact Nat.le_add_right _ _

/-- Only statements that return values look like fields. -/
theorem type_of_mem_fields (hC : IsIdent className) (hn : ∀ name ∈ names, IsIdent name) :
    ∀ found ∈ fieldPattern.findAll (classText className names),
      found.text .type = "return".toList := by
  have hhead : ∀ rest, fieldPattern.Misses (classHead className ++ ['\x7b']) rest := by
    rw [classHead_eq]
    refine fun rest => misses_field (by decide) ?_ fun stop hstop => ?_
    · exact not_mem_around hC (by decide) (by decide) rfl
    · have hall : ∀ stop ∈ fieldStops, stop ∉ "public class ".toList ∧ stop ∉ [' ', '\x7b'] ∧
          isIdentChar stop = false := by decide
      obtain ⟨hlead, htrail, hchar⟩ := hall stop hstop
      rw [List.append_assoc _ [' ']]
      exact not_mem_around hC hlead htrail hchar
  rw [classText_eq, List.append_cons, Pattern.findAll, (hhead _).findAllFrom]
  exact type_of_mem_behind hn (Nat.zero_le _)

/-! ### Methods -/

/-- A match is the head of a method that starts at an offset. -/
structure MethodAt (start : Nat) (name : List Char) (found : Match) : Prop where
  starts : found.start = start
  stops : found.stop = start + Text.width ("public int ".toList ++ name ++ ['('])
  named : found.part? .name = some ⟨start + 11, name⟩
  typed : found.part? .type = some ⟨start + 7, "int".toList⟩
  modified : found.text .modifiers = "public ".toList
  declared : ∃ declaration, found.part? .declaration = some declaration ∧
    declaration.start = start

/-- Some matches are the methods of a class from some of them on, in order. -/
inductive Laid (className : List Char) : List (List Char) → List (List Char) → List Match → Prop
  | nil (earlier : List (List Char)) : Laid className earlier [] []
  | cons {earlier later : List (List Char)} {name : List Char} {found : Match}
      {founds : List Match} :
      MethodAt (Text.width (lead className earlier)) name found →
      Laid className (earlier ++ [name]) later founds →
      Laid className earlier (name :: later) (found :: founds)

theorem laid_findAllFrom (hn : ∀ name ∈ later, IsIdent name) {resume : Nat} {previous : Option Char}
    (hle : resume ≤ Text.width (front className earlier)) :
    Laid className earlier later
      (methodPattern.findAllFrom resume previous (Text.width (front className earlier))
        (behind later)) := by
  induction later generalizing earlier resume previous with
  | nil =>
    have hmiss : methodPattern.Misses (behind []) [] :=
      misses_behind rfl (by decide) nofun fun rest =>
        show methodPattern.Misses (['\n'] ++ ['\x7d']) rest from
          misses_method (by decide) (by decide) (by decide)
    rw [hmiss.findAllFrom_eq_nil rfl]
    exact .nil earlier
  | cons name later ih =>
    have hindent : ∀ rest, methodPattern.Misses indent rest := fun rest =>
      Pattern.misses_of_avoids rfl (by decide)
    have hbody : ∀ rest, methodPattern.Misses (walled bodyPieces) rest := by
      have hall : ∀ piece ∈ bodyPieces, piece.2 ∈ walls ∧ '@' ∉ piece.1 ∧
          '(' ∉ piece.1 ++ [piece.2] := by decide
      exact Pattern.misses_walled fun piece hp rest =>
        misses_method (hall piece hp).1 (hall piece hp).2.1 (hall piece hp).2.2
    obtain ⟨found, hmatch, hstart, hstop, hname, htype, hmodifiers, hdeclaration⟩ := matchAt_method
      (indent.getLast?.or previous) (Text.width (front className earlier) + Text.width indent)
      (walled bodyPieces ++ behind later) (hn name List.mem_cons_self)
    rw [← Text.width_append, ← lead] at hmatch hstart hstop hname htype hdeclaration
    have hwidth : Text.width (lead className earlier) + Text.width ("public int ".toList ++ name ++
        ['(']) + Text.width (walled bodyPieces) = Text.width (front className (earlier ++ [name])) := by
      rw [front_concat, member_eq, bodyText_eq_walled, lead]
      simp only [Text.width_append, Text.width_cons, Text.width_nil]
      omega
    have hsplit : member name ++ behind later = indent ++ ("public int ".toList ++ name ++ ['('] ++
        (walled bodyPieces ++ behind later)) := by
      rw [member_eq, bodyText_eq_walled]
      simp only [List.append_assoc, List.cons_append, List.nil_append]
    rw [behind_cons, hsplit, (hindent _).findAllFrom, ← Text.width_append, ← lead,
      Pattern.findAllFrom_of_matchAt ?_ (by simp) ?_ hstop, (hbody _).findAllFrom, hwidth]
    · refine .cons ⟨hstart, hstop, hname, htype, hmodifiers, hdeclaration⟩ (ih ?_ ?_)
      · exact fun other ho => hn other (List.mem_cons_of_mem _ ho)
      · rw [hstop, ← hwidth]
        exact Nat.le_add_right _ _
    · rw [lead, Text.width_append]
      omega
    · rw [List.append_cons] at hmatch
      exact hmatch

/-- Every method of a class is found, and nothing else. -/
theorem laid_methods (hC : IsIdent className) (hn : ∀ name ∈ names, IsIdent name) :
    Laid className [] names (methodPattern.findAll (classText className names)) := by
  have hhead : ∀ rest, methodPattern.Misses (classHead className ++ ['\x7b']) rest := by
    rw [classHead_eq]
    refine fun rest => misses_method (by decide) (not_mem_around hC (by decide) (by decide) rfl) ?_
    rw [List.append_assoc _ [' ']]
    exact not_mem_around hC (by decide) (by decide) rfl
  have hfront : classHead className ++ ['\x7b'] = front className [] := rfl
  rw [classText_eq, List.append_cons, Pattern.findAll, (hhead _).findAllFrom, Nat.zero_add, hfront]
  exact laid_findAllFrom hn (Nat.zero_le _)

end Java
end Outline
