import Mathlib.Tactic.MkIffOfInductiveProp
import Outline.Json.Value
import Outline.Proofs.Entry.NameSet
import Outline.Report.Basic

/-!
# Outlines that are written and read back

What a writer makes of an entry its reader reads as that entry, as long as lines, columns and
counts fit into 64 bits and complexities into 32.  Fields that are left out when they have no
value, fields that are then `null`, names of kinds and sets of names all come back, and the
fields of a summary also do next to the path of its file.  A field is found in an object whose
fields were written one after the other, some of them only when they have a value.
-/

namespace Outline

/-! ## Fields -/

namespace Json

section

variable {α : Type} {key name : String} {value : Json} {fields : List (String × Json)}

@[simp] theorem field?_nil : field? key [] = none := rfl

/-- A later field of the same name counts before this one. -/
@[simp] theorem field?_cons : field? key ((name, value) :: fields) =
    (field? key fields).or (if name = key then some value else none) := by
  rw [field?]
  cases field? key fields <;> rfl

@[simp] theorem field?_append (fields later : List (String × Json)) :
    field? key (fields ++ later) = (field? key later).or (field? key fields) := by
  induction fields with
  | nil => rw [List.nil_append, field?_nil, Option.or_none]
  | cons first fields ih => rw [List.cons_append, field?_cons, field?_cons, ih, Option.or_assoc]

@[simp] theorem field?_present (write : α → Json) (value : Option α) :
    field? key (present name write value) = if name = key then value.map write else none := by
  cases value with
  | none => exact (ite_self _).symm
  | some value => rw [present, field?_cons, field?_nil, Option.none_or, Option.map_some]

/-- A text that is left out or `null` where there is none. -/
theorem maybe_string (key : String) (value : Option String)
    (h : field? key fields = value.map .string ∨
      field? key fields = some (ofOption .string value)) :
    maybe fields key string? = some value := by
  rw [maybe]
  rcases h with h | h <;> rw [h] <;> cases value <;> rfl

end

@[simp] theorem string?_string (text : String) : string? (.string text) = some text := rfl

@[simp] theorem bool?_bool (value : Bool) : bool? (.bool value) = some value := rfl

theorem naturalBelow?_natural {bound n : Nat} (h : n < bound) :
    naturalBelow? bound (.natural n) = some n := if_pos h

/-- A list is read back when each of its items is. -/
theorem list?_ofList {α : Type} {read : Json → Option α} {write : α → Json} {items : List α}
    (h : ∀ item ∈ items, read (write item) = some item) :
    list? read (ofList write items) = some items := by
  show (items.map write).mapM read = some items
  induction items with
  | nil => rfl
  | cons item items ih =>
    obtain ⟨hitem, hitems⟩ := List.forall_mem_cons.mp h
    rw [List.map_cons, List.mapM_cons, hitem, ih hitems]
    rfl

theorem list?_ofList_string (texts : List String) :
    list? string? (ofList .string texts) = some texts :=
  list?_ofList fun _ _ => rfl

end Json
/-! ## Entries without numbers -/

theorem Severity.ofJson?_toJson (severity : Severity) :
    ofJson? severity.toJson = some severity := by
  cases severity <;> rfl

theorem Visibility.ofJson?_toJson (visibility : Visibility) :
    ofJson? visibility.toJson = some visibility := by
  cases visibility <;> rfl

theorem ClassKind.ofJson?_toJson (kind : ClassKind) : ofJson? kind.toJson = some kind := by
  cases kind <;> rfl

theorem ExportKind.ofJson?_toJson (kind : ExportKind) : ofJson? kind.toJson = some kind := by
  cases kind <;> rfl

theorem Parameter.ofJson?_toJson (parameter : Parameter) :
    ofJson? parameter.toJson = some parameter := by
  dsimp only [toJson, ofJson?, Json.fields?, Option.bind_eq_bind, Option.bind_some]
  rw [Json.maybe_string "defaultValue" parameter.defaultValue]
  · simp [Json.required]
  · simp

theorem NameSet.ofJson?_toJson (set : NameSet) : ofJson? set.toJson = some set := by
  rw [ofJson?, toJson, Json.list?_ofList_string, Option.map_some, ofList_toList]

theorem ImportedName.ofJson?_toJson (imported : ImportedName) :
    ofJson? imported.toJson = some imported := by
  dsimp only [toJson, ofJson?, Json.fields?, Option.bind_eq_bind, Option.bind_some]
  rw [Json.maybe_string "alias" imported.localName]
  · simp [Json.required]
  · simp

/-! ## Entries with numbers -/

namespace Diagnostic

/-- A place that fits into 64 bits. -/
@[mk_iff] structure InRange (diagnostic : Diagnostic) : Prop where
  line : diagnostic.line < UInt64.size
  column : diagnostic.column < UInt64.size

instance : DecidablePred InRange := fun diagnostic => decidable_of_iff' _ diagnostic.inRange_iff

theorem InRange.ofJson?_toJson {diagnostic : Diagnostic} (h : diagnostic.InRange) :
    ofJson? diagnostic.toJson = some diagnostic := by
  have hline := Json.naturalBelow?_natural h.line
  have hcolumn := Json.naturalBelow?_natural h.column
  dsimp only [toJson, ofJson?, Json.fields?, Option.bind_eq_bind, Option.bind_some]
  rw [Json.maybe_string "code" diagnostic.code]
  · simp [Json.required, Json.index?, hline, hcolumn, Severity.ofJson?_toJson]
  · simp

end Diagnostic

namespace FunctionEntry

/-- Lines that fit into 64 bits and a complexity that fits into 32. -/
@[mk_iff] structure InRange (entry : FunctionEntry) : Prop where
  startLine : entry.startLine < UInt64.size
  endLine : entry.endLine < UInt64.size
  complexity : entry.complexity < UInt32.size

instance : DecidablePred InRange := fun entry => decidable_of_iff' _ entry.inRange_iff

theorem InRange.ofJson?_toJson {entry : FunctionEntry} (h : entry.InRange) :
    ofJson? entry.toJson = some entry := by
  have hstart := Json.naturalBelow?_natural h.startLine
  have hend := Json.naturalBelow?_natural h.endLine
  have hcomplexity := Json.naturalBelow?_natural h.complexity
  have hparameters := Json.list?_ofList fun parameter (_ : parameter ∈ entry.parameters) =>
    parameter.ofJson?_toJson
  dsimp only [toJson, ofJson?, Json.fields?, Option.bind_eq_bind, Option.bind_some]
  rw [Json.maybe_string "returnType" entry.returnType, Json.maybe_string "receiver" entry.receiver,
    Json.maybe_string "namespace" entry.scope]
  · simp [Json.required, Json.index?, hstart, hend, hcomplexity, hparameters,
      Json.list?_ofList_string, NameSet.ofJson?_toJson]
  · simp
  · simp
  · simp

end FunctionEntry

namespace PropertyEntry

/-- A line that fits into 64 bits. -/
@[mk_iff] structure InRange (entry : PropertyEntry) : Prop where
  line : entry.line < UInt64.size

instance : DecidablePred InRange := fun entry => decidable_of_iff' _ entry.inRange_iff

theorem InRange.ofJson?_toJson {entry : PropertyEntry} (h : entry.InRange) :
    ofJson? entry.toJson = some entry := by
  have hline := Json.naturalBelow?_natural h.line
  dsimp only [toJson, ofJson?, Json.fields?, Option.bind_eq_bind, Option.bind_some]
  rw [Json.maybe_string "defaultValue" entry.defaultValue]
  · simp [Json.required, Json.index?, hline, Visibility.ofJson?_toJson]
  · simp

end PropertyEntry

namespace ClassEntry

/-- Lines that fit into 64 bits, and members in range. -/
@[mk_iff] structure InRange (entry : ClassEntry) : Prop where
  startLine : entry.startLine < UInt64.size
  endLine : entry.endLine < UInt64.size
  methods : ∀ method ∈ entry.methods, method.InRange
  properties : ∀ property ∈ entry.properties, property.InRange

instance : DecidablePred InRange := fun entry => decidable_of_iff' _ entry.inRange_iff

theorem InRange.ofJson?_toJson {entry : ClassEntry} (h : entry.InRange) :
    ofJson? entry.toJson = some entry := by
  have hstart := Json.naturalBelow?_natural h.startLine
  have hend := Json.naturalBelow?_natural h.endLine
  have hmethods := Json.list?_ofList fun method hm => (h.methods method hm).ofJson?_toJson
  have hproperties := Json.list?_ofList fun property hp =>
    (h.properties property hp).ofJson?_toJson
  dsimp only [toJson, ofJson?, Json.fields?, Option.bind_eq_bind, Option.bind_some]
  rw [Json.maybe_string "extends" entry.base, Json.maybe_string "namespace" entry.scope]
  · simp [Json.required, Json.index?, hstart, hend, hmethods, hproperties,
      Json.list?_ofList_string, ClassKind.ofJson?_toJson]
  · simp
  · simp

end ClassEntry

namespace ImportEntry

/-- A line that fits into 64 bits. -/
@[mk_iff] structure InRange (entry : ImportEntry) : Prop where
  line : entry.line < UInt64.size

instance : DecidablePred InRange := fun entry => decidable_of_iff' _ entry.inRange_iff

theorem InRange.ofJson?_toJson {entry : ImportEntry} (h : entry.InRange) :
    ofJson? entry.toJson = some entry := by
  have hline := Json.naturalBelow?_natural h.line
  have hnames := Json.list?_ofList fun imported (_ : imported ∈ entry.names) =>
    imported.ofJson?_toJson
  simp [toJson, ofJson?, Json.fields?, Json.required, Json.index?, hline, hnames]

end ImportEntry

namespace ExportEntry

/-- A line that fits into 64 bits. -/
@[mk_iff] structure InRange (entry : ExportEntry) : Prop where
  line : entry.line < UInt64.size

instance : DecidablePred InRange := fun entry => decidable_of_iff' _ entry.inRange_iff

theorem InRange.ofJson?_toJson {entry : ExportEntry} (h : entry.InRange) :
    ofJson? entry.toJson = some entry := by
  have hline := Json.naturalBelow?_natural h.line
  simp [toJson, ofJson?, Json.fields?, Json.required, Json.index?, hline, ExportKind.ofJson?_toJson]

end ExportEntry

/-! ## Summaries and reports -/

namespace Summary

/-- All entries are in range. -/
@[mk_iff] structure InRange (summary : Summary) : Prop where
  functions : ∀ entry ∈ summary.functions, entry.InRange
  classes : ∀ entry ∈ summary.classes, entry.InRange
  imports : ∀ entry ∈ summary.imports, entry.InRange
  exports : ∀ entry ∈ summary.exports, entry.InRange
  syntaxErrors : ∀ diagnostic ∈ summary.syntaxErrors, diagnostic.InRange
  warnings : ∀ diagnostic ∈ summary.warnings, diagnostic.InRange

/-- The fields of a summary are read behind any others that give no package. -/
theorem InRange.ofFields?_append {summary : Summary} (h : summary.InRange)
    {front : List (String × Json)}
    (hfront : Json.field? "package" front = none) :
    ofFields? (front ++ summary.toFields) = some summary := by
  have hfunctions := Json.list?_ofList fun entry he => (h.functions entry he).ofJson?_toJson
  have hclasses := Json.list?_ofList fun entry he => (h.classes entry he).ofJson?_toJson
  have himports := Json.list?_ofList fun entry he => (h.imports entry he).ofJson?_toJson
  have hexports := Json.list?_ofList fun entry he => (h.exports entry he).ofJson?_toJson
  have herrors := Json.list?_ofList fun entry he => (h.syntaxErrors entry he).ofJson?_toJson
  have hwarnings := Json.list?_ofList fun entry he => (h.warnings entry he).ofJson?_toJson
  simp only [toFields, ofFields?, Option.bind_eq_bind]
  rw [Json.maybe_string "package" summary.package]
  · simp [Json.required, hfunctions, hclasses, himports, hexports, herrors, hwarnings]
  · simp [hfront]

instance : DecidablePred InRange := fun summary => decidable_of_iff' _ summary.inRange_iff

theorem InRange.ofJson?_toJson {summary : Summary} (h : summary.InRange) :
    ofJson? summary.toJson = some summary :=
  @InRange.ofFields?_append summary h [] rfl

end Summary

theorem FileSummary.ofJson?_toJson {file : FileSummary} (h : file.summary.InRange) :
    ofJson? file.toJson = some file := by
  have hsummary : Summary.ofFields? (("path", Json.string file.path) :: file.summary.toFields) =
      some file.summary :=
    @Summary.InRange.ofFields?_append file.summary h [("path", .string file.path)] rfl
  have hpath : Json.required (("path", Json.string file.path) :: file.summary.toFields) "path"
      Json.string? = some file.path := by
    simp [Json.required, Summary.toFields]
  simp only [toJson, ofJson?, Json.object?, Option.bind_eq_bind, Option.bind_some, hpath, hsummary]

namespace Totals

/-- Counts that fit into 64 bits. -/
@[mk_iff] structure InRange (totals : Totals) : Prop where
  files : totals.files < UInt64.size
  functions : totals.functions < UInt64.size
  classes : totals.classes < UInt64.size
  imports : totals.imports < UInt64.size
  syntaxErrors : totals.syntaxErrors < UInt64.size
  warnings : totals.warnings < UInt64.size

instance : DecidablePred InRange := fun totals => decidable_of_iff' _ totals.inRange_iff

theorem InRange.ofJson?_toJson {totals : Totals} (h : totals.InRange) :
    ofJson? totals.toJson = some totals := by
  have hfiles := Json.naturalBelow?_natural h.files
  have hfunctions := Json.naturalBelow?_natural h.functions
  have hclasses := Json.naturalBelow?_natural h.classes
  have himports := Json.naturalBelow?_natural h.imports
  have herrors := Json.naturalBelow?_natural h.syntaxErrors
  have hwarnings := Json.naturalBelow?_natural h.warnings
  simp [toJson, ofJson?, Json.object?, Json.required, Json.index?, hfiles, hfunctions, hclasses,
    himports, herrors, hwarnings]

end Totals

namespace Report

/-- A summary is read back from what is written of it, with or without the path of its file, and
so is the report of any files.  The counts of a report are 64 bits wide, as lines are, so there
can be no more functions, classes, imports and diagnostics in all files together. -/
theorem reads_back :
    (∀ summary : Summary, summary.InRange → Summary.ofJson? summary.toJson = some summary) ∧
    (∀ file : FileSummary, file.summary.InRange → FileSummary.ofJson? file.toJson = some file) ∧
    ∀ (path : String) (files : List FileSummary), (∀ file ∈ files, file.summary.InRange) →
      (Totals.ofFiles files).InRange →
      ofJson? (ofFiles path files).toJson = some (ofFiles path files) := by
  refine ⟨fun _ h => h.ofJson?_toJson, fun _ h => FileSummary.ofJson?_toJson h, ?_⟩
  intro path files hfiles htotals
  have hlist := Json.list?_ofList fun file hf => FileSummary.ofJson?_toJson (hfiles file hf)
  simp [toJson, ofJson?, ofFiles, Json.object?, Json.required, hlist, htotals.ofJson?_toJson]

theorem reads_back_failure :
    FileSummary.ofJson? (FileSummary.toJson ⟨"a.java", .failure "java" "m"⟩) =
      some ⟨"a.java", .failure "java" "m"⟩ ∧
    ofJson? (ofFiles "src" [⟨"a.java", .failure "java" "m"⟩, ⟨"", .empty "cpp"⟩]).toJson =
      some (ofFiles "src" [⟨"a.java", .failure "java" "m"⟩, ⟨"", .empty "cpp"⟩]) ∧
    Summary.ofJson? (Summary.toJson { Summary.empty "cpp" with
      functions := [⟨"f", [⟨"x", "int", true, some "1"⟩], none, 1, 3, 2, .ofList ["g"], true,
        false, false, false, "", ["testF"], some "A", none⟩] }) =
      some { Summary.empty "cpp" with
        functions := [⟨"f", [⟨"x", "int", true, some "1"⟩], none, 1, 3, 2, .ofList ["g"], true,
          false, false, false, "", ["testF"], some "A", none⟩] } :=
  ⟨reads_back.2.1 _ (by decide), reads_back.2.2 _ _ (by decide) (by decide),
    reads_back.1 _ (by decide)⟩

end Report
end Outline
