import Outline.Extraction.Java.Rule
import Outline.Proofs.Pattern.Sweep

/-!
# Where declarations cannot start

Apart from annotations, the patterns of declarations read neither braces nor parentheses nor
semicolons before they come to their ends.  So no declaration starts in a stretch of text in
front of such a character unless the stretch has what the declaration must end with.
-/

namespace Outline
namespace Java

open Pattern (Matches Misses)

/-- The characters that no declaration reads on its way. -/
def walls : List Char := ['\x7b', '\x7d', '(', ')', ';']

variable {c d : Cursor} {ms : List Mark} {u rest : List Char} {wall : Char}

/-- Where no annotation starts, none is read. -/
theorem of_annotations (h : c.rest.head? ≠ some '@') (hm : Matches annotations c d ms) : d = c := by
  rcases hm.of_star with rfl | ⟨e, _, _, hround, -⟩
  · rfl
  · obtain ⟨_, _, _, hannotation, -, -⟩ := hround.of_seq
    obtain ⟨_, _, _, hmarked, -, -⟩ := hannotation.of_seq
    obtain ⟨_, _, _, hat, -, -⟩ := hmarked.of_seq
    obtain ⟨a, ha, hread⟩ := hat.of_char
    obtain rfl : a = '@' := beq_iff_eq.mp ha
    exact absurd (congrArg List.head? hread.1) h

theorem head?_ne_at (hwall : wall ∈ walls) (hat : '@' ∉ u) :
    (u ++ wall :: rest).head? ≠ some '@' := by
  cases u with
  | nil =>
    rintro ⟨⟩
    exact absurd hwall (by decide)
  | cons a u =>
    intro h
    exact hat (Option.some.inj h ▸ List.mem_cons_self)

/-! ## Behind the annotations -/

/-- A method behind its annotations, up to its parameters. -/
def methodBody : Pattern :=
  .part .declaration
      (modifiers ["public", "protected", "private", "static", "final", "abstract", "synchronized",
          "native", "default", "strictfp"]
        ++ .optional (typeArguments ++ .blanks) ++ .optional (typeName ++ .blanks1)
        ++ .part .name .dollarName)
    ++ .blanks ++ .lit "("

/-- A field behind its annotations, up to the end of its first name. -/
def fieldBody : Pattern :=
  .part .declaration
      (modifiers ["public", "protected", "private", "static", "final", "transient", "volatile"]
        ++ typeName ++ .blanks1 ++ .part .name .dollarName)
    ++ .blanks ++ .many (.lit "[" ++ .blanks ++ .lit "]" ++ .blanks)
    ++ .char fun c => c == '=' || c == ';' || c == ','

/-- The words that declare types. -/
def kindWords : List String := ["class", "interface", "enum", "record", "@interface"]

/-- A type behind its annotations, up to its name. -/
def typeBody : Pattern :=
  .part .declaration
    (modifiers ["public", "protected", "private", "static", "final", "abstract", "sealed",
        "non-sealed", "strictfp"]
      ++ .part .kind (.oneOf kindWords) ++ .blanks1 ++ .part .name .dollarName)

/-- A pattern reads annotations and then a declaration. -/
structure Annotated (p body : Pattern) : Prop where
  ends : ∀ reaches, p.ends reaches = body.ends (annotations.ends reaches)
  of_matches : ∀ {c d : Cursor} {ms : List Mark}, Matches p c d ms →
    ∃ e ns os, Matches annotations c e ns ∧ Matches body e d os

theorem annotated_method : Annotated methodPattern methodBody where
  ends _ := rfl
  of_matches hm := by
    obtain ⟨_, _, _, hm, hparen, -⟩ := hm.of_seq
    obtain ⟨_, _, _, hm, hblanks, -⟩ := hm.of_seq
    obtain ⟨_, _, _, hannotations, hdeclaration, -⟩ := hm.of_seq
    exact ⟨_, _, _, hannotations, (hdeclaration.seq hblanks).seq hparen⟩

theorem annotated_field : Annotated fieldPattern fieldBody where
  ends _ := rfl
  of_matches hm := by
    obtain ⟨_, _, _, hm, hend, -⟩ := hm.of_seq
    obtain ⟨_, _, _, hm, hbrackets, -⟩ := hm.of_seq
    obtain ⟨_, _, _, hm, hblanks, -⟩ := hm.of_seq
    obtain ⟨_, _, _, hannotations, hdeclaration, -⟩ := hm.of_seq
    exact ⟨_, _, _, hannotations, ((hdeclaration.seq hblanks).seq hbrackets).seq hend⟩

theorem annotated_type : Annotated typePattern typeBody where
  ends _ := rfl
  of_matches hm := by
    obtain ⟨_, _, _, hannotations, hdeclaration, -⟩ := hm.of_seq
    exact ⟨_, _, _, hannotations, hdeclaration⟩

/-- Where no annotation starts, the declaration does. -/
theorem Annotated.body_of_ne {p body : Pattern} (hp : Annotated p body)
    (h : c.rest.head? ≠ some '@') (hm : Matches p c d ms) : ∃ os, Matches body c d os := by
  obtain ⟨e, _, os, hannotations, hbody⟩ := hp.of_matches hm
  obtain rfl := of_annotations h hannotations
  exact ⟨os, hbody⟩

/-! ## What stands in front of a wall -/

theorem paren_of_methodBody (hm : Matches methodBody c d ms) (hwall : wall ∈ walls)
    (hc : c.rest = u ++ wall :: rest) : '(' ∈ u ++ [wall] := by
  obtain ⟨e, _, _, hm, hparen, -⟩ := hm.of_seq
  have hspares : ∀ wall ∈ walls, (Pattern.seq (.part .declaration
      (modifiers ["public", "protected", "private", "static", "final", "abstract", "synchronized",
        "native", "default", "strictfp"] ++ .optional (typeArguments ++ .blanks)
        ++ .optional (typeName ++ .blanks1) ++ .part .name .dollarName))
      Pattern.blanks).spares wall = true := by decide
  obtain ⟨_, v, -, rfl, he⟩ := hm.in_front (hspares wall hwall) hc
  have hmem := Pattern.mem_of_reads_cons he hparen.of_word
  rw [List.append_assoc]
  exact List.mem_append_right _ hmem

theorem paren_of_method (hm : Matches methodPattern c d ms) (hwall : wall ∈ walls)
    (hat : '@' ∉ u) (hc : c.rest = u ++ wall :: rest) : '(' ∈ u ++ [wall] := by
  obtain ⟨_, hbody⟩ := annotated_method.body_of_ne (hc ▸ head?_ne_at hwall hat) hm
  exact paren_of_methodBody hbody hwall hc

/-- The characters that a field may end with. -/
def fieldStops : List Char := ['=', ';', ',']

theorem stop_of_fieldBody (hm : Matches fieldBody c d ms) (hwall : wall ∈ walls)
    (hc : c.rest = u ++ wall :: rest) : ∃ stop ∈ fieldStops, stop ∈ u ++ [wall] := by
  obtain ⟨e, _, _, hm, hend, -⟩ := hm.of_seq
  have hspares : ∀ wall ∈ walls, (Pattern.seq (.seq (.part .declaration
      (modifiers ["public", "protected", "private", "static", "final", "transient", "volatile"]
        ++ typeName ++ .blanks1 ++ .part .name .dollarName)) Pattern.blanks)
      (.many (.lit "[" ++ .blanks ++ .lit "]" ++ .blanks))).spares wall = true := by decide
  obtain ⟨_, v, -, rfl, he⟩ := hm.in_front (hspares wall hwall) hc
  obtain ⟨stop, hstop, hread⟩ := hend.of_char
  refine ⟨stop, ?_, ?_⟩
  · simpa [fieldStops, or_assoc] using hstop
  · rw [List.append_assoc]
    exact List.mem_append_right _ (Pattern.mem_of_reads_cons he hread)

theorem stop_of_field (hm : Matches fieldPattern c d ms) (hwall : wall ∈ walls)
    (hat : '@' ∉ u) (hc : c.rest = u ++ wall :: rest) : ∃ stop ∈ fieldStops, stop ∈ u ++ [wall] := by
  obtain ⟨_, hbody⟩ := annotated_field.body_of_ne (hc ▸ head?_ne_at hwall hat) hm
  exact stop_of_fieldBody hbody hwall hc

/-- What a semicolon must end has its words and the semicolon in front of a wall. -/
theorem mem_of_ended {p : Pattern} {wanted : Char} (hm : Matches (p ++ .lit ";") c d ms)
    (hwall : p.spares wall = true) (hwanted : p.needs wanted = true) (hc : c.rest = u ++ wall :: rest) :
    wanted ∈ u ∧ ';' ∈ u ++ [wall] := by
  obtain ⟨e, _, _, hm, hsemicolon, -⟩ := hm.of_seq
  refine ⟨hm.mem_in_front hwall hwanted hc, ?_⟩
  obtain ⟨_, v, -, rfl, he⟩ := hm.in_front hwall hc
  rw [List.append_assoc]
  exact List.mem_append_right _ (Pattern.mem_of_reads_cons he hsemicolon.of_word)

/-- A type has the word for its kind in front of a wall, and a blank behind the word. -/
theorem kind_of_typeBody (hm : Matches typeBody c d ms) (hwall : wall ∈ walls)
    (hc : c.rest = u ++ wall :: rest) :
    ∃ word ∈ kindWords, ∃ blank, Text.isBlank blank = true ∧ word.toList ++ [blank] <:+: u := by
  obtain ⟨_, hm, -⟩ := hm.of_part
  obtain ⟨e₃, _, _, hm, -, -⟩ := hm.of_seq
  obtain ⟨e₂, _, _, hm, hblanks, -⟩ := hm.of_seq
  obtain ⟨e₁, _, _, hmodifiers, hkind, -⟩ := hm.of_seq
  obtain ⟨_, hkind, -⟩ := hkind.of_part
  have hfront : ∀ wall ∈ walls, (modifiers ["public", "protected", "private", "static", "final",
      "abstract", "sealed", "non-sealed", "strictfp"]).spares wall = true := by decide
  have hbehind : ∀ wall ∈ walls, (Pattern.seq (.oneOf kindWords) .blanks1).spares wall = true := by
    decide
  obtain ⟨lead, v, -, rfl, he₁⟩ := hmodifiers.in_front (hfront wall hwall) hc
  obtain ⟨read, w, hread, rfl, -⟩ := (hkind.seq hblanks).in_front (hbehind wall hwall) he₁
  obtain ⟨word, hword, hwread⟩ := hkind.of_oneOf
  obtain ⟨_, _, _, hblank, hrun, -⟩ := hblanks.of_seq
  obtain ⟨blank, hb, hbread⟩ := hblank.of_char
  obtain ⟨more, -, hmore⟩ := hrun.of_run
  have hsame : read = word.toList ++ ([blank] ++ more) :=
    List.append_cancel_right (hread.1.symm.trans ((hwread.trans (hbread.trans hmore)).1))
  refine ⟨word, hword, blank, hb, lead, more ++ w, ?_⟩
  rw [hsame]
  simp only [List.append_assoc]

theorem kind_of_type (hm : Matches typePattern c d ms) (hwall : wall ∈ walls)
    (hat : '@' ∉ u) (hc : c.rest = u ++ wall :: rest) :
    ∃ word ∈ kindWords, ∃ blank, Text.isBlank blank = true ∧ word.toList ++ [blank] <:+: u := by
  obtain ⟨_, hbody⟩ := annotated_type.body_of_ne (hc ▸ head?_ne_at hwall hat) hm
  exact kind_of_typeBody hbody hwall hc

/-! ## Stretches without declarations -/

theorem mem_suffix {a v : List Char} (h : u = a ++ v) {x : Char} (hx : x ∈ v ++ [wall]) :
    x ∈ u ++ [wall] := by
  rw [h, List.append_assoc]
  exact List.mem_append_right a hx

theorem misses_method (hwall : wall ∈ walls) (hat : '@' ∉ u) (h : '(' ∉ u ++ [wall]) :
    methodPattern.Misses (u ++ [wall]) rest := by
  refine Pattern.misses_in_front fun a v hu previous d ms hm => h (mem_suffix hu ?_)
  exact paren_of_method hm hwall (fun hmem => hat (hu ▸ List.mem_append_right a hmem)) rfl

theorem misses_field (hwall : wall ∈ walls) (hat : '@' ∉ u)
    (h : ∀ stop ∈ fieldStops, stop ∉ u ++ [wall]) : fieldPattern.Misses (u ++ [wall]) rest := by
  refine Pattern.misses_in_front fun a v hu previous d ms hm => ?_
  obtain ⟨stop, hstop, hmem⟩ :=
    stop_of_field hm hwall (fun hmem => hat (hu ▸ List.mem_append_right a hmem)) rfl
  exact h stop hstop (mem_suffix hu hmem)

/-- Packages and imports are missed where their words or the semicolon is missing. -/
theorem misses_ended {p : Pattern} {wanted : Char} (hwall : p.spares wall = true)
    (hwanted : p.needs wanted = true) (h : wanted ∉ u ∨ ';' ∉ u ++ [wall]) :
    (p ++ .lit ";").Misses (u ++ [wall]) rest := by
  refine Pattern.misses_in_front fun a v hu previous d ms hm => ?_
  obtain ⟨hmem, hsemicolon⟩ := mem_of_ended hm hwall hwanted rfl
  rcases h with h | h
  · exact h (hu ▸ List.mem_append_right a hmem)
  · exact h (mem_suffix hu hsemicolon)

/-- A package is missed where no semicolon ends it. -/
theorem misses_package (hwall : wall ∈ ['\x7b', '\x7d', '(', ')'])
    (hu : ';' ∉ u) : packagePattern.Misses (u ++ [wall]) rest := by
  have hspares : ∀ wall ∈ ['\x7b', '\x7d', '(', ')'],
      (Pattern.boundary ++ .lit "package" ++ .blanks1 ++ .part .path (.run1 isPathChar) ++
        .blanks).spares wall = true ∧ wall ≠ ';' := by decide
  have hneeds : (Pattern.boundary ++ .lit "package" ++ .blanks1 ++
      .part .path (.run1 isPathChar) ++ .blanks).needs 'p' = true := by decide
  refine misses_ended (hspares wall hwall).1 hneeds (.inr ?_)
  rw [List.mem_append, not_or, List.mem_singleton]
  exact ⟨hu, fun hc => (hspares wall hwall).2 hc.symm⟩

theorem misses_type (hwall : wall ∈ walls) (hat : '@' ∉ u)
    (h : ∀ word ∈ kindWords, ∀ blank, Text.isBlank blank = true → ¬ word.toList ++ [blank] <:+: u) :
    typePattern.Misses (u ++ [wall]) rest := by
  refine Pattern.misses_in_front fun a v hu previous d ms hm => ?_
  obtain ⟨word, hword, blank, hblank, x, y, hxy⟩ :=
    kind_of_type hm hwall (fun hmem => hat (hu ▸ List.mem_append_right a hmem)) rfl
  exact h word hword blank hblank ⟨a ++ x, y, by simp [hu, ← hxy]⟩

end Java
end Outline
