import Outline.Proofs.Extraction.Spelling
import Outline.Report.Pretty

/-!
# One line for each entry

Types have single spaces and names no line feeds, so a report for readers gives every function and
every property one line, and every class one line in front of those of its members.
-/

namespace Outline

open Text (SingleSpaced normalizeSpace normalizeSpace_eq_self_iff)

/-- A text without line feeds. -/
def Feedless (text : String) : Prop := '\n' ∉ text.toList

instance : DecidablePred Feedless := fun text =>
  inferInstanceAs (Decidable ('\n' ∉ text.toList))

/-- A line with the line feed that ends it. -/
def OneLine (text : String) : Prop := ∃ line, Feedless line ∧ text = line ++ "\n"

namespace Feedless

@[simp] theorem append {a b : String} : Feedless (a ++ b) ↔ Feedless a ∧ Feedless b := by
  simp [Feedless]

@[simp] theorem ofNat (n : Nat) : Feedless (toString n) := fun h => by
  rw [Nat.toString_eq_repr, Nat.toList_repr] at h
  exact absurd (Nat.isDigit_of_mem_toDigits (by decide) (by decide) h) (by decide)

theorem intercalate {between : String} {pieces : List String} (hb : Feedless between)
    (h : ∀ piece ∈ pieces, Feedless piece) : Feedless (between.intercalate pieces) := by
  induction pieces with
  | nil => simp [Feedless]
  | cons piece pieces ih =>
    obtain ⟨hpiece, hpieces⟩ := List.forall_mem_cons.mp h
    cases pieces with
    | nil => simpa using hpiece
    | cons next pieces =>
      rw [String.intercalate_cons_cons]
      exact append.mpr ⟨append.mpr ⟨hpiece, hb⟩, ih hpieces⟩

theorem of_singleSpaced {text : String} (h : SingleSpaced text.toList) : Feedless text :=
  h.not_mem_feed

end Feedless

/-! ## Styles -/

namespace Style

theorem mem_reopen {start text : List Char} {pending : Nat} {c : Char}
    (h : c ∈ reopen start pending text) : c ∈ text ∨ c ∈ start := by
  fun_induction reopen start pending text with
  | case1 => cases h
  | case2 d rest _ ih | case3 d rest _ ih | case5 _ d rest ih =>
    rcases List.mem_cons.mp h with rfl | h
    · exact .inl List.mem_cons_self
    · exact (ih h).imp_left (List.mem_cons_of_mem d)
  | case4 d rest ih =>
    rcases List.mem_append.mp h with h | h
    · rcases List.mem_cons.mp h with rfl | h
      · exact .inl List.mem_cons_self
      · exact .inr h
    · exact (ih h).imp_left (List.mem_cons_of_mem d)

theorem feed_not_mem_sequence (style : Style) : '\n' ∉ sequence style.codes := by
  obtain ⟨bold, dimmed, color⟩ := style
  cases bold <;> cases dimmed <;> rcases color with _ | color <;> try cases color
  all_goals decide

theorem feedless_apply (colors : Bool) (style : Style) {text : String} (h : Feedless text) :
    Feedless (apply colors style text) := by
  have hstart := feed_not_mem_sequence style
  rw [apply]
  split
  · rw [Feedless, String.toList_ofList]
    intro hmem
    rcases List.mem_append.mp hmem with hmem | hmem
    · rcases List.mem_append.mp hmem with hmem | hmem
      · exact hstart hmem
      · rcases mem_reopen hmem with hmem | hmem
        · exact h hmem
        · exact hstart hmem
    · exact absurd hmem (by decide)
  · exact h

end Style

/-! ## Entries -/

namespace Pretty

variable {palette : Palette}

theorem feedless_lineRange (first last : Nat) : Feedless (lineRange palette first last) := by
  refine Style.feedless_apply _ _ ?_
  show Feedless (" " ++ toString first ++ "-" ++ toString last)
  simp only [Feedless.append, Feedless.ofNat, and_true]
  exact ⟨by decide, by decide⟩

theorem feedless_complexityLabel (complexity : Nat) :
    Feedless (complexityLabel palette complexity) := by
  refine Style.feedless_apply _ _ ?_
  show Feedless ("cx " ++ toString complexity)
  simp only [Feedless.append, Feedless.ofNat, and_true]
  decide

theorem feedless_parameter {entry : Parameter}
    (h : '\n' ∉ entry.name.toList ∧ SingleSpaced entry.type.toList) :
    Feedless (parameter entry) := by
  rw [parameter]
  split
  · exact h.1
  · simp only [Feedless.append]
    exact ⟨⟨h.1, by decide⟩, .of_singleSpaced h.2⟩

/-- A function is reported on one line. -/
theorem oneLine_function {entry : FunctionEntry} (h : entry.Spelled) :
    OneLine (function palette entry) := by
  refine ⟨_, ?_, rfl⟩
  have hmark : Feedless (if entry.isExported then palette.colored .green "+"
      else palette.colored .red "-") := by
    split
    · exact Style.feedless_apply _ _ (by decide)
    · exact Style.feedless_apply _ _ (by decide)
  have hparameters : Feedless (String.intercalate ", " (entry.parameters.map parameter)) := by
    refine .intercalate (by decide) fun piece hpiece => ?_
    obtain ⟨p, hp, rfl⟩ := List.mem_map.mp hpiece
    exact feedless_parameter (h.parameters p hp)
  have hreturn : Feedless ((entry.returnType.map (" -> " ++ ·)).getD "") := by
    cases htype : entry.returnType with
    | none => exact (by decide : Feedless "")
    | some type =>
      exact Feedless.append.mpr ⟨by decide, .of_singleSpaced (h.returnType type htype)⟩
  simp only [Feedless.append]
  exact ⟨⟨⟨⟨⟨⟨⟨⟨⟨hmark, by decide⟩, h.name⟩, by decide⟩, hparameters⟩, by decide⟩, hreturn⟩,
    feedless_lineRange _ _⟩, by decide⟩, feedless_complexityLabel _⟩

/-- A property is reported on one line. -/
theorem oneLine_property {entry : PropertyEntry} (hname : '\n' ∉ entry.name.toList)
    (htype : SingleSpaced entry.type.toList) : OneLine (property palette entry) := by
  refine ⟨_, ?_, rfl⟩
  have hmark : Feedless (visibilityMark palette entry.visibility) := by
    cases entry.visibility with
    | packageMember => exact (by decide : Feedless "~")
    | publicMember | protectedMember | privateMember => exact Style.feedless_apply _ _ (by decide)
  simp only [Feedless.append]
  exact ⟨⟨⟨⟨⟨by decide, hmark⟩, by decide⟩, hname⟩, by decide⟩,
    Style.feedless_apply _ _ (.of_singleSpaced htype)⟩

/-- A class is reported on one line, in front of the lines of its members. -/
theorem oneLine_ofClass {entry : ClassEntry} (h : entry.Spelled) :
    ∃ heading, OneLine heading ∧ ofClass palette entry =
      heading ++ String.join (entry.properties.map (property palette))
        ++ String.join (entry.methods.map fun method => "      " ++ function palette method) := by
  refine ⟨_, ⟨_, ?_, rfl⟩, rfl⟩
  have hkind : Feedless entry.kind.name := by cases entry.kind <;> decide
  have hbase : Feedless ((entry.base.map (" extends " ++ ·)).getD "") := by
    cases htype : entry.base with
    | none => exact (by decide : Feedless "")
    | some type => exact Feedless.append.mpr ⟨by decide, .of_singleSpaced (h.base type htype)⟩
  have hinterfaces : Feedless (if entry.interfaces.isEmpty then ""
      else " implements " ++ String.intercalate ", " entry.interfaces) := by
    split
    · decide
    · refine Feedless.append.mpr ⟨by decide, .intercalate (by decide) fun type htype => ?_⟩
      exact .of_singleSpaced (h.interfaces type htype)
  have habstract : Feedless (if entry.isAbstract then " " ++ palette.dimmed "abstract" else "") := by
    split
    · exact Feedless.append.mpr ⟨by decide, Style.feedless_apply _ _ (by decide)⟩
    · decide
  simp only [Feedless.append]
  exact ⟨⟨⟨⟨⟨⟨⟨by decide, Style.feedless_apply _ _ hkind⟩, by decide⟩,
    Style.feedless_apply _ _ h.name⟩, feedless_lineRange _ _⟩, hbase⟩, hinterfaces⟩, habstract⟩

end Pretty

/-! ## Summaries -/

/-- Every type in a summary: of parameters, results, properties and bases. -/
def Summary.types (summary : Summary) : List String :=
  (summary.allFunctions.flatMap fun entry =>
      entry.parameters.map (·.type) ++ entry.returnType.toList)
    ++ summary.classes.flatMap fun entry =>
      entry.properties.map (·.type) ++ entry.base.toList ++ entry.interfaces

theorem Summary.Spelled.singleSpaced {summary : Summary} (h : summary.Spelled) :
    ∀ type ∈ summary.types, SingleSpaced type.toList := by
  intro type htype
  rcases List.mem_append.mp htype with htype | htype
  · obtain ⟨entry, he, htype⟩ := List.mem_flatMap.mp htype
    have hentry := h.functions entry he
    rcases List.mem_append.mp htype with htype | htype
    · obtain ⟨parameter, hp, rfl⟩ := List.mem_map.mp htype
      exact (hentry.parameters parameter hp).2
    · exact hentry.returnType type (Option.mem_toList.mp htype)
  · obtain ⟨entry, he, htype⟩ := List.mem_flatMap.mp htype
    have hentry := h.classes entry he
    rcases List.mem_append.mp htype with htype | htype
    · rcases List.mem_append.mp htype with htype | htype
      · obtain ⟨property, hp, rfl⟩ := List.mem_map.mp htype
        exact h.properties entry he property hp
      · exact hentry.base type (Option.mem_toList.mp htype)
    · exact hentry.interfaces type htype

namespace Registry

/-- A name that stands in a row of a text holds no line feed. -/
theorem feed_not_mem_property (text : List Char) : ∀ extractor ∈ builtIn.extractors,
    ∀ entry ∈ (extractor.parse text).classes, ∀ property ∈ entry.properties,
      '\n' ∉ property.name.toList := by
  intro extractor he entry hentry property hproperty
  have hcases : extractor = java ∨ extractor = cpp := by
    simpa [builtIn, register, empty] using he
  have hstands : property.Stands text := by
    rcases hcases with rfl | rfl
    · exact Extractor.parse_properties (Language.extract_properties (Java.properties_stand text))
        entry hentry property hproperty
    · exact Extractor.parse_properties (Language.extract_properties (Cpp.properties_stand text))
        entry hentry property hproperty
  obtain ⟨offset, hstands, -⟩ := hstands
  exact hstands.unbroken.2

/-- Every type in a summary of either language is what reducing its blanks makes of it: no blank at
its ends, none but single spaces inside.  So a report for readers, in colors or without, gives each
function and each property one line, and each class one line in front of those of its members. -/
theorem types_singleSpaced (text : List Char) : ∀ extractor ∈ builtIn.extractors,
    (∀ type ∈ (extractor.parse text).types,
      normalizeSpace type.toList = type.toList ∧ SingleSpaced type.toList) ∧
    ∀ palette : Pretty.Palette,
      (∀ entry ∈ (extractor.parse text).allFunctions, OneLine (Pretty.function palette entry)) ∧
      ∀ entry ∈ (extractor.parse text).classes,
        (∀ property ∈ entry.properties, OneLine (Pretty.property palette property)) ∧
        ∃ heading, OneLine heading ∧ Pretty.ofClass palette entry =
          heading ++ String.join (entry.properties.map (Pretty.property palette))
            ++ String.join (entry.methods.map fun method =>
              "      " ++ Pretty.function palette method) := by
  intro extractor he
  have hspelled := spelled_of_mem_builtIn text extractor he
  refine ⟨fun type htype => ?_, fun palette => ⟨fun entry hentry => ?_, fun entry hentry =>
    ⟨fun property hproperty => ?_, Pretty.oneLine_ofClass (hspelled.classes entry hentry)⟩⟩⟩
  · have hsingle := hspelled.singleSpaced type htype
    exact ⟨(normalizeSpace_eq_self_iff _).mpr hsingle, hsingle⟩
  · exact Pretty.oneLine_function (hspelled.functions entry hentry)
  · exact Pretty.oneLine_property (feed_not_mem_property text extractor he entry hentry property
      hproperty) (hspelled.properties entry hentry property hproperty)

/-- A base, a parameter and a trailing return type that go over lines. -/
theorem types_singleSpaced_broken :
    (cpp.parse ("struct S : public\tA< int,\n B > \x7b\n auto f(const\n char *b[ 4 ])"
        ++ " -> std::vector<\n int >\n override;\n\x7d;").toList).types =
      ["const char *[ 4 ]", "std::vector< int >", "A< int, B >"] ∧
    ∀ type ∈ (cpp.parse ("struct S : public\tA< int,\n B > \x7b\n auto f(const\n char *b[ 4 ])"
        ++ " -> std::vector<\n int >\n override;\n\x7d;").toList).types,
      normalizeSpace type.toList = type.toList ∧ SingleSpaced type.toList :=
  ⟨by decide +kernel,
    (types_singleSpaced _ cpp (by simp [builtIn, register, empty])).1⟩

end Registry
end Outline
