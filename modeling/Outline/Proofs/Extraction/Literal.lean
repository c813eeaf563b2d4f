import Outline.Proofs.Declaration.Tidy
import Outline.Proofs.Extraction.Cpp.Twin
import Outline.Proofs.Extraction.Java.Twin
import Outline.Proofs.Extraction.Registry

/-!
# What literals cannot change

The structure that a built-in extractor recognizes is a matter of the masked view.
Two texts with one masked view have the same functions, classes and methods one by
one, and the parameters of each are read from between the same parentheses.  These are
the same, too, but for what literals hold in their types, as long as the literals keep
out of the way of the reader.
-/

namespace Outline

open Mask (stretch view)
open Parameter (tidy)

/-- Functions of two texts that stand for each other: they differ in parameters, return
types, documentation and the names of tests at most, their parameters are those between
the same parentheses, and where the literals there are tidy in both texts the parameters
are the same but for literals. -/
structure FunctionEntry.Counterpart (maskRules : MaskRules) (rules : ParameterRules)
    (text text' : List Char) (x y : FunctionEntry) : Prop where
  shell : x.shell = y.shell
  parameters : ∃ paren stop, Text.charAt? (Mask.masked maskRules text) paren = some '(' ∧
    Delimiter.find (Mask.masked maskRules text) paren = ⟨stop, true⟩ ∧
    x.parameters =
      Parameter.ofList rules (view (· == .comment) (stretch maskRules text (paren + 1) stop)) ∧
    y.parameters =
      Parameter.ofList rules (view (· == .comment) (stretch maskRules text' (paren + 1) stop)) ∧
    (tidy rules (stretch maskRules text (paren + 1) stop) = true →
      tidy rules (stretch maskRules text' (paren + 1) stop) = true →
      List.Forall₂ (Parameter.SameButLiterals rules) x.parameters y.parameters)

section

variable {language : Language} {rules : ParameterRules} {text text' : List Char}

theorem slices_between {maskRules : MaskRules} {paren stop : Nat}
    (hparen : Text.charAt? (Mask.masked maskRules text) paren = some '(')
    (hclose : Delimiter.find (Mask.masked maskRules text) paren = ⟨stop, true⟩) :
    Text.slice? (Mask.stripped maskRules text) (paren + 1) stop =
        some (view (· == .comment) (stretch maskRules text (paren + 1) stop)) ∧
      Text.slice? (Mask.masked maskRules text) (paren + 1) stop =
        some (view (· != .plain) (stretch maskRules text (paren + 1) stop)) := by
  have hblanks := Mask.blanks_masked maskRules text
  obtain ⟨hclosed, hle⟩ := Delimiter.charAt?_find_close rfl hparen (by rw [hclose])
  rw [hclose] at hclosed hle
  have hs := (hblanks.isBoundary_of_charAt? (by decide) hparen).2
  have he := (hblanks.isBoundary_of_charAt? (by decide) hclosed).1
  exact ⟨Mask.slice?_stripped hs he hle, Mask.slice?_masked hs he hle⟩

theorem slice?_of_strippedPart {part : List Char} {start stop : Nat}
    (h : (language.subject text).source.strippedPart start stop = .ok part) :
    Text.slice? (Mask.stripped language.maskRules text) start stop = some part := by
  rw [SourceText.strippedPart, SourceText.part] at h
  split at h
  · next hslice =>
    cases h
    exact hslice
  · simp at h

theorem FunctionEntry.ReadAlike.counterpart {x y : FunctionEntry}
    (hm : Mask.masked language.maskRules text = Mask.masked language.maskRules text')
    (hp : Parameter.plainRules rules = true)
    (h : FunctionEntry.ReadAlike rules (language.subject text) (language.subject text') x y) :
    FunctionEntry.Counterpart language.maskRules rules text text' x y := by
  obtain ⟨hshell, paren, stop, left, right, hparen, hclose, hleft, hright, hx, hy⟩ := h
  change Text.charAt? (Mask.masked language.maskRules text) paren = some '(' at hparen
  change Delimiter.find (Mask.masked language.maskRules text) paren = ⟨stop, true⟩ at hclose
  obtain ⟨hshown, hhidden⟩ := slices_between hparen hclose
  obtain ⟨hshown', hhidden'⟩ := slices_between (hm ▸ hparen) (hm ▸ hclose)
  have hleft' := slice?_of_strippedPart hleft
  have hright' := slice?_of_strippedPart hright
  rw [hshown, Option.some.injEq] at hleft'
  rw [hshown', Option.some.injEq] at hright'
  rw [hm, hhidden', Option.some.injEq] at hhidden
  subst hleft' hright'
  refine ⟨hshell, paren, stop, hparen, hclose, hx, hy, fun ht ht' => ?_⟩
  rw [hx, hy]
  exact Parameter.sameButLiterals_of_tidy hp ht ht' hhidden.symm

theorem Summary.Twin.imp {R S : FunctionEntry → FunctionEntry → Prop} {a b : Summary}
    (h : a.Twin R b) (hRS : ∀ x y, R x y → S x y) : a.Twin S b :=
  ⟨h.functions.imp hRS, h.classes.imp fun _ _ hc => ⟨hc.shell, hc.methods.imp hRS⟩⟩

theorem Extractor.extract_of_not_failure {extractor : Extractor}
    (h : (extractor.parse text).isFailure = false) :
    extractor.extract text = .ok (extractor.parse text) := by
  rw [Extractor.parse] at h ⊢
  split
  · next hok => exact hok
  · next hfailed =>
    rw [hfailed] at h
    simp [Summary.isFailure, Summary.failure] at h

end

namespace Registry

/-- The built-in languages and the rules by which they read parameters. -/
def readers : List (Language × ParameterRules) :=
  [(Java.language, Java.parameterRules), (Cpp.language, Cpp.parameterRules)]

theorem builtIn_extractors : builtIn.extractors = readers.map fun reader => .ofLanguage reader.1 :=
  rfl

theorem findsTwins_of_mem_readers {reader : Language × ParameterRules} (hr : reader ∈ readers)
    {text text' : List Char}
    (hm : Mask.masked reader.1.maskRules text = Mask.masked reader.1.maskRules text') :
    Parameter.plainRules reader.2 = true ∧
      ∀ rule ∈ reader.1.rules, rule.FindsTwins (FunctionEntry.ReadAlike reader.2
        (reader.1.subject text) (reader.1.subject text')) (reader.1.subject text)
        (reader.1.subject text') := by
  simp only [readers, List.mem_cons, List.not_mem_nil, or_false] at hr
  rcases hr with rfl | rfl
  · exact ⟨by decide, Java.findsTwins_of_mem_rules hm⟩
  · exact ⟨by decide, Cpp.findsTwins_of_mem_rules hm⟩

theorem cpp_parse_not_failure (text : List Char) : (cpp.parse text).isFailure = false := by
  obtain ⟨summary, hok, hmeets⟩ := Language.extract_yields (Cpp.ensures_of_mem_rules text)
  rw [Extractor.parse_eq hok]
  exact hmeets.isFailure_eq_false

/-- What literals hold cannot change the structure.  Two texts with one masked view, neither
of which is a failure, have the same classes, functions and methods, each with the same
name, lines, complexity, dependencies and flags, and with parameters from between the same
parentheses.  Where the literals between them are tidy in both texts, the parameters have
the same names and optional flags in the same order, and types that differ in literals
only. -/
theorem twin_of_masked_eq {reader : Language × ParameterRules} (hr : reader ∈ readers)
    {text text' : List Char}
    (hm : Mask.masked reader.1.maskRules text = Mask.masked reader.1.maskRules text')
    (h : ((Extractor.ofLanguage reader.1).parse text).isFailure = false)
    (h' : ((Extractor.ofLanguage reader.1).parse text').isFailure = false) :
    ((Extractor.ofLanguage reader.1).parse text).Twin
      (FunctionEntry.Counterpart reader.1.maskRules reader.2 text text')
      ((Extractor.ofLanguage reader.1).parse text') := by
  obtain ⟨hplain, hrules⟩ := findsTwins_of_mem_readers hr hm
  have htwin := Language.extract_twin (fun _ _ hxy => hxy.shell) hrules _ _
    (Extractor.extract_of_not_failure h) (Extractor.extract_of_not_failure h')
  exact htwin.imp fun _ _ hxy => hxy.counterpart hm hplain

/-- A character literal in a type and a string as a default, with other contents. -/
theorem twin_of_masked_eq_contents :
    Mask.masked .cpp "int f(Tag<'a'> t, Name n = \"x y\") \x7b\x7d".toList =
        Mask.masked .cpp "int f(Tag<'b'> t, Name n = \"  z\") \x7b\x7d".toList ∧
      (cpp.parse "int f(Tag<'a'> t, Name n = \"x y\") \x7b\x7d".toList).Twin
        (FunctionEntry.Counterpart .cpp Cpp.parameterRules
          "int f(Tag<'a'> t, Name n = \"x y\") \x7b\x7d".toList
          "int f(Tag<'b'> t, Name n = \"  z\") \x7b\x7d".toList)
        (cpp.parse "int f(Tag<'b'> t, Name n = \"  z\") \x7b\x7d".toList) ∧
      (cpp.parse "int f(Tag<'a'> t, Name n = \"x y\") \x7b\x7d".toList).functions.map
          (fun entry => entry.parameters.map (·.name)) = [["t", "n"]] := by
  have hmasked : Mask.masked .cpp "int f(Tag<'a'> t, Name n = \"x y\") \x7b\x7d".toList =
      Mask.masked .cpp "int f(Tag<'b'> t, Name n = \"  z\") \x7b\x7d".toList := by decide +kernel
  have hcpp : (Cpp.language, Cpp.parameterRules) ∈ readers := by simp [readers]
  exact ⟨hmasked,
    twin_of_masked_eq hcpp hmasked (cpp_parse_not_failure _) (cpp_parse_not_failure _),
    by decide +kernel⟩

/-- Types are spelled with their literals, so that texts with one masked view may differ in
the types of their parameters. -/
theorem types_differ_of_masked_eq :
    Mask.masked .cpp "void f(Foo<'a'> x) \x7b\x7d".toList =
        Mask.masked .cpp "void f(Foo<'b'> x) \x7b\x7d".toList ∧
      (cpp.parse "void f(Foo<'a'> x) \x7b\x7d".toList).isFailure = false ∧
      (cpp.parse "void f(Foo<'b'> x) \x7b\x7d".toList).isFailure = false ∧
      (cpp.parse "void f(Foo<'a'> x) \x7b\x7d".toList).functions.map
          (fun entry => entry.parameters.map (·.type)) = [["Foo<'a'>"]] ∧
      (cpp.parse "void f(Foo<'b'> x) \x7b\x7d".toList).functions.map
          (fun entry => entry.parameters.map (·.type)) = [["Foo<'b'>"]] :=
  ⟨by decide +kernel, cpp_parse_not_failure _, cpp_parse_not_failure _, by decide +kernel,
    by decide +kernel⟩

end Registry
end Outline
