import Mathlib.Data.List.Basic
import Outline.Extraction.Scan
import Outline.Proofs.Declaration.Lower

/-!
# Summaries under an aspect

Two runs that should tell the same need not tell it in the same words: one source may
stand further down, or have other comments.  An aspect says what to make of that.  It
adds lines, and it may leave out all that is read from comments.  What was recorded
under an aspect is what is recorded of findings under it, and recognizers ask nothing
of a scan that an aspect changes, but for the lines.
-/

namespace Outline

/-- The number of lines, and of line feeds, by which things are moved down, and whether
documentation, imports and the columns of open bodies are left out. -/
structure Aspect where
  lines : Nat
  bare : Bool
  deriving DecidableEq, Repr

namespace Aspect

/-- Further down, and else unchanged. -/
def lowered (lines : Nat) : Aspect := ⟨lines, false⟩

/-- Without what is read from comments. -/
def uncommented : Aspect := ⟨0, true⟩

/-- The same without moving anything. -/
def still (aspect : Aspect) : Aspect := { aspect with lines := 0 }

@[simp] theorem lines_still (aspect : Aspect) : aspect.still.lines = 0 := rfl

@[simp] theorem bare_still (aspect : Aspect) : aspect.still.bare = aspect.bare := rfl

/-- A documentation under an aspect. -/
def docstring (aspect : Aspect) (text : String) : String := if aspect.bare then "" else text

end Aspect

/-! ## Entries -/

def FunctionEntry.under (aspect : Aspect) (entry : FunctionEntry) : FunctionEntry :=
  { entry with
    startLine := entry.startLine + aspect.lines
    endLine := entry.endLine + aspect.lines
    docstring := aspect.docstring entry.docstring }

def PropertyEntry.under (aspect : Aspect) (entry : PropertyEntry) : PropertyEntry :=
  { entry with line := entry.line + aspect.lines }

def ClassEntry.under (aspect : Aspect) (entry : ClassEntry) : ClassEntry :=
  { entry with
    methods := entry.methods.map (FunctionEntry.under aspect)
    properties := entry.properties.map (PropertyEntry.under aspect)
    startLine := entry.startLine + aspect.lines
    endLine := entry.endLine + aspect.lines
    docstring := aspect.docstring entry.docstring }

def ImportEntry.under (aspect : Aspect) (entry : ImportEntry) : ImportEntry :=
  { entry with line := entry.line + aspect.lines }

def ExportEntry.under (aspect : Aspect) (entry : ExportEntry) : ExportEntry :=
  { entry with line := entry.line + aspect.lines }

/-- A warning.  Where on its line the declaration of an open body starts is counted over
the comments in front of it. -/
def Diagnostic.under (aspect : Aspect) (warning : Diagnostic) : Diagnostic :=
  { warning.down aspect.lines with
    column :=
      if aspect.bare && warning.code == some Subject.unterminatedCode then 0 else warning.column }

def Summary.under (aspect : Aspect) (summary : Summary) : Summary :=
  { summary with
    functions := summary.functions.map (FunctionEntry.under aspect)
    classes := summary.classes.map (ClassEntry.under aspect)
    imports := if aspect.bare then [] else summary.imports.map (ImportEntry.under aspect)
    exports := summary.exports.map (ExportEntry.under aspect)
    syntaxErrors := summary.syntaxErrors.map (Diagnostic.down aspect.lines)
    warnings := summary.warnings.map (Diagnostic.under aspect) }

/-! ## Findings and scans -/

def ClassDraft.under (aspect : Aspect) (draft : ClassDraft) : ClassDraft :=
  { draft with
    entry := draft.entry.under aspect
    opening := draft.opening + aspect.lines
    close := draft.close + aspect.lines
    labels := draft.labels.map fun (offset, visibility) => (offset + aspect.lines, visibility) }

/-- A finding under an aspect, if the aspect does not leave it out. -/
def Finding.under? (aspect : Aspect) : Finding → Option Finding
  | .package name => some (.package name)
  | .imported entry => if aspect.bare then none else some (.imported (entry.under aspect))
  | .block opening kind => some (.block (opening + aspect.lines) kind)
  | .classBody draft => some (.classBody (draft.under aspect))
  | .label index offset visibility => some (.label index (offset + aspect.lines) visibility)
  | .abstractClass index => some (.abstractClass index)
  | .method index entry => some (.method index (entry.under aspect))
  | .property index entry => some (.property index (entry.under aspect))
  | .function entry => some (.function (entry.under aspect))
  | .error diagnostic => some (.error (diagnostic.down aspect.lines))
  | .warning diagnostic => some (.warning (diagnostic.under aspect))

def Scan.under (aspect : Aspect) (scan : Scan) : Scan where
  package := scan.package
  classes := scan.classes.map (ClassDraft.under aspect)
  functions := scan.functions.map (FunctionEntry.under aspect)
  imports := if aspect.bare then [] else scan.imports.map (ImportEntry.under aspect)
  errors := scan.errors.map (Diagnostic.down aspect.lines)
  warnings := scan.warnings.map (Diagnostic.under aspect)
  blocks := scan.blocks.map fun (opening, block) => (opening + aspect.lines, block)

/-- The findings of two runs are the same under an aspect, which moves those of the
first. -/
def Finding.SameUnder (aspect : Aspect) (fs gs : List Finding) : Prop :=
  fs.filterMap (Finding.under? aspect) = gs.filterMap (Finding.under? aspect.still)

/-- The scans of two runs are the same under an aspect, which moves the first. -/
def Scan.SameUnder (aspect : Aspect) (a b : Scan) : Prop := a.under aspect = b.under aspect.still

namespace ClassDraft

variable {aspect aspect' : Aspect} {d e : ClassDraft}

theorem name_eq_of_under (h : d.under aspect = e.under aspect') : e.entry.name = d.entry.name :=
  (congrArg (fun draft : ClassDraft => draft.entry.name) h).symm

theorem kind_eq_of_under (h : d.under aspect = e.under aspect') : e.entry.kind = d.entry.kind :=
  (congrArg (fun draft : ClassDraft => draft.entry.kind) h).symm

theorem defaultVisibility_eq_of_under (h : d.under aspect = e.under aspect') :
    e.defaultVisibility = d.defaultVisibility :=
  (congrArg (fun draft : ClassDraft => draft.defaultVisibility) h).symm

end ClassDraft

variable {aspect : Aspect}

theorem Finding.SameUnder.append {fs gs fs' gs' : List Finding} (h : SameUnder aspect fs gs)
    (k : SameUnder aspect fs' gs') : SameUnder aspect (fs ++ fs') (gs ++ gs') := by
  rw [SameUnder, List.filterMap_append, List.filterMap_append, h, k]

theorem Finding.SameUnder.nil : SameUnder aspect [] [] := rfl

theorem Finding.SameUnder.single {f g : Finding} (h : f.under? aspect = g.under? aspect.still) :
    SameUnder aspect [f] [g] := by
  rw [SameUnder, List.filterMap_cons, List.filterMap_cons, h]
  rfl

theorem Finding.SameUnder.classBody {d e : ClassDraft} (h : d.under aspect = e.under aspect.still) :
    SameUnder aspect [.classBody d] [.classBody e] :=
  .single (congrArg (some ∘ Finding.classBody) h)

theorem Finding.SameUnder.method (index : Nat) {x y : FunctionEntry}
    (h : x.under aspect = y.under aspect.still) :
    SameUnder aspect [.method index x] [.method index y] :=
  .single (congrArg (some ∘ Finding.method index) h)

theorem Finding.SameUnder.function {x y : FunctionEntry}
    (h : x.under aspect = y.under aspect.still) : SameUnder aspect [.function x] [.function y] :=
  .single (congrArg (some ∘ Finding.function) h)

/-- Moving a scan by nothing leaves it as it is. -/
theorem Scan.under_lowered_zero (scan : Scan) : scan.under (.lowered 0) = scan := by
  have hfunction : FunctionEntry.under (.lowered 0) = id := rfl
  have hproperty : PropertyEntry.under (.lowered 0) = id := rfl
  -- Only entries with lists in them need more than unfolding.
  have hclass : ClassEntry.under (.lowered 0) = id := by
    funext entry
    rw [ClassEntry.under, hfunction, hproperty, List.map_id, List.map_id]
    rfl
  have hdraft : ClassDraft.under (.lowered 0) = id := by
    funext draft
    rw [ClassDraft.under, hclass]
    exact congrArg (fun labels => { draft with labels }) (List.map_id _)
  have himport : ImportEntry.under (.lowered 0) = id := rfl
  have herror : Diagnostic.down (Aspect.lowered 0).lines = id := rfl
  have hwarning : Diagnostic.under (.lowered 0) = id := rfl
  simp only [Scan.under, hfunction, hdraft, himport, herror, hwarning, List.map_id]
  exact congrArg (fun blocks => { scan with blocks }) (List.map_id _)

/-! ## Recording -/

theorem map_modify_eq {α : Type} {f g u : α → α} (h : ∀ x, u (f x) = g (u x)) (l : List α)
    (index : Nat) : (l.modify index f).map u = (l.map u).modify index g := by
  induction l generalizing index with
  | nil => cases index <;> rfl
  | cons x l ih =>
    cases index with
    | zero => exact congrArg (· :: l.map u) (h x)
    | succ index => exact congrArg (u x :: ·) (ih index)

/-- Under other keys the same entries are found. -/
theorem lookup_map_key {α : Type} {f : Nat → Nat} (hf : ∀ a b, f a = f b → a = b)
    (entries : List (Nat × α)) (key : Nat) :
    (entries.map fun (entry, value) => (f entry, value)).lookup (f key) = entries.lookup key := by
  induction entries with
  | nil => rfl
  | cons entry entries ih =>
    have hkey : (f key == f entry.1) = (key == entry.1) := by
      rw [Bool.eq_iff_iff, beq_iff_eq, beq_iff_eq]
      exact ⟨hf key entry.1, congrArg f⟩
    rw [List.map_cons, List.lookup_cons, List.lookup_cons, ih, hkey]

theorem Scan.record_under (aspect : Aspect) (scan : Scan) (f : Finding) :
    (scan.record f).under aspect = (scan.under aspect).recordAll (f.under? aspect).toList := by
  cases f with
  | package name => rfl
  | imported entry =>
    cases hbare : aspect.bare <;>
      simp [Finding.under?, Scan.record, Scan.under, Scan.recordAll, hbare]
  | block opening block => rfl
  | classBody draft =>
    simp [Finding.under?, Scan.record, Scan.under, Scan.recordAll, ClassDraft.under]
  | label index offset visibility =>
    refine congrArg (fun classes => { scan.under aspect with classes }) (map_modify_eq ?_ _ _)
    intro draft
    simp [ClassDraft.under]
  | abstractClass index =>
    refine congrArg (fun classes => { scan.under aspect with classes }) (map_modify_eq ?_ _ _)
    exact fun draft => rfl
  | method index entry =>
    refine congrArg (fun classes => { scan.under aspect with classes }) (map_modify_eq ?_ _ _)
    intro draft
    simp [ClassDraft.under, ClassEntry.under]
  | property index entry =>
    refine congrArg (fun classes => { scan.under aspect with classes }) (map_modify_eq ?_ _ _)
    intro draft
    simp [ClassDraft.under, ClassEntry.under]
  | function entry => simp [Finding.under?, Scan.record, Scan.under, Scan.recordAll]
  | error diagnostic => simp [Finding.under?, Scan.record, Scan.under, Scan.recordAll]
  | warning diagnostic => simp [Finding.under?, Scan.record, Scan.under, Scan.recordAll]

theorem Scan.recordAll_under (aspect : Aspect) (scan : Scan) (findings : List Finding) :
    (scan.recordAll findings).under aspect =
      (scan.under aspect).recordAll (findings.filterMap (Finding.under? aspect)) := by
  induction findings generalizing scan with
  | nil => rfl
  | cons f findings ih =>
    have hrecord := Scan.record_under aspect scan f
    rw [List.filterMap_cons]
    show ((scan.record f).recordAll findings).under aspect = _
    rw [ih, hrecord]
    cases f.under? aspect <;> rfl

namespace Scan.SameUnder

variable {a b : Scan}

theorem empty : SameUnder aspect .empty .empty := by
  cases h : aspect.bare <;> simp [SameUnder, Scan.under, Scan.empty, h]

theorem recordAll (h : SameUnder aspect a b) {fs gs : List Finding}
    (hs : Finding.SameUnder aspect fs gs) :
    SameUnder aspect (a.recordAll fs) (b.recordAll gs) := by
  rw [SameUnder, Scan.recordAll_under, Scan.recordAll_under, h, hs]

/-! ## What recognizers ask of a scan -/

theorem package_eq (h : SameUnder aspect a b) : b.package = a.package :=
  (congrArg Scan.package h).symm

theorem classes_eq (h : SameUnder aspect a b) :
    b.classes.map (ClassDraft.under aspect.still) = a.classes.map (ClassDraft.under aspect) :=
  (congrArg Scan.classes h).symm

theorem length_classes_eq (h : SameUnder aspect a b) : b.classes.length = a.classes.length := by
  rw [← List.length_map (ClassDraft.under aspect.still), h.classes_eq, List.length_map]

theorem blockAt?_eq (h : SameUnder aspect a b) (opening : Nat) :
    b.blockAt? (opening + aspect.lines) = a.blockAt? opening := by
  have hblocks : b.blocks = a.blocks.map fun (start, block) => (start + aspect.lines, block) := by
    have hstill := congrArg Scan.blocks h
    simpa [Scan.under] using hstill.symm
  rw [Scan.blockAt?, Scan.blockAt?, hblocks]
  exact lookup_map_key (f := (· + aspect.lines)) (fun _ _ h => Nat.add_right_cancel h) _ _

theorem inAnyClass_eq (h : SameUnder aspect a b) (offset : Nat) :
    b.inAnyClass (offset + aspect.lines) = a.inAnyClass offset := by
  have hmoved : ∀ (v : Aspect) (classes : List ClassDraft) (at' : Nat),
      (classes.map (ClassDraft.under v)).any
          (fun draft => draft.opening ≤ at' + v.lines && at' + v.lines ≤ draft.close) =
        classes.any fun draft => draft.opening ≤ at' && at' ≤ draft.close := by
    intro v classes at'
    rw [List.any_map]
    refine congrArg (classes.any ·) (funext fun draft => ?_)
    simp [ClassDraft.under]
  have hleft := hmoved aspect a.classes offset
  have hright := hmoved aspect.still b.classes (offset + aspect.lines)
  rw [Scan.inAnyClass, Scan.inAnyClass, ← hleft, ← hright, h.classes_eq]
  rfl

theorem visibilityAt_eq {d e : ClassDraft} (h : d.under aspect = e.under aspect.still)
    (offset : Nat) : e.visibilityAt (offset + aspect.lines) = d.visibilityAt offset := by
  have hlabels : e.labels =
      d.labels.map fun (start, visibility) => (start + aspect.lines, visibility) := by
    have hstill := congrArg ClassDraft.labels h
    simpa [ClassDraft.under] using hstill.symm
  have hlt : ((fun label : Nat × Visibility => decide (label.1 < offset + aspect.lines)) ∘
      fun (label : Nat × Visibility) => (label.1 + aspect.lines, label.2)) =
        fun label => decide (label.1 < offset) := by
    funext label
    simp
  rw [ClassDraft.visibilityAt, ClassDraft.visibilityAt, hlabels,
    ClassDraft.defaultVisibility_eq_of_under h, List.takeWhile_map, hlt,
    List.getLast?_map, Option.map_map]
  rfl

end Scan.SameUnder

/-! ## The summary of a scan -/

namespace Scan

/-- Entries keep their order under a map that their order does not see. -/
theorem map_mergeSort_eq {α : Type} {r : α → α → Bool} {f : α → α}
    (h : ∀ x y, r (f x) (f y) = r x y) (l : List α) :
    (l.mergeSort r).map f = (l.map f).mergeSort r :=
  List.map_mergeSort fun x _ y _ => (h x y).symm

theorem diagnosticLe_down (n : Nat) (x y : Diagnostic) :
    diagnosticLe (x.down n) (y.down n) = diagnosticLe x y := by
  have heq : (x.line + n == y.line + n) = (x.line == y.line) := by
    rw [Bool.eq_iff_iff, beq_iff_eq, beq_iff_eq, Nat.add_right_cancel_iff]
  have hlt : decide (x.line + n < y.line + n) = decide (x.line < y.line) :=
    decide_eq_decide.mpr Nat.add_lt_add_iff_right
  show (decide (x.line + n < y.line + n) ||
    (x.line + n == y.line + n && decide (x.column ≤ y.column))) = _
  rw [heq, hlt, diagnosticLe]

theorem finishClass_under (aspect : Aspect) (draft : ClassDraft) :
    finishClass (draft.under aspect) = (finishClass draft).under aspect := by
  have hmethods := map_mergeSort_eq (f := FunctionEntry.under aspect)
    (r := fun x y => x.startLine ≤ y.startLine) (by simp [FunctionEntry.under])
    draft.entry.methods
  have hproperties := map_mergeSort_eq (f := PropertyEntry.under aspect)
    (r := fun x y => x.line ≤ y.line) (by simp [PropertyEntry.under]) draft.entry.properties
  simp only [finishClass, ClassDraft.under, ClassEntry.under, hmethods, hproperties]

theorem exportOfClass?_under (aspect : Aspect) (draft : ClassDraft) :
    exportOfClass? (draft.under aspect) = (exportOfClass? draft).map (ExportEntry.under aspect) := by
  rw [exportOfClass?, exportOfClass?, apply_ite (Option.map (ExportEntry.under aspect))]
  rfl

theorem exportOfFunction?_under (aspect : Aspect) (entry : FunctionEntry) :
    exportOfFunction? (entry.under aspect) =
      (exportOfFunction? entry).map (ExportEntry.under aspect) := by
  rw [exportOfFunction?, exportOfFunction?, apply_ite (Option.map (ExportEntry.under aspect))]
  rfl

/-- The summary under an aspect, but for warnings: they are sorted by their columns, too. -/
theorem finish_under (aspect : Aspect) (scan : Scan) (language : String) :
    (scan.under aspect).finish language =
      { (scan.finish language).under aspect with
        warnings := (scan.warnings.map (Diagnostic.under aspect)).mergeSort diagnosticLe } := by
  have hfunctions := map_mergeSort_eq (f := FunctionEntry.under aspect)
    (r := fun x y => x.startLine ≤ y.startLine) (by simp [FunctionEntry.under]) scan.functions
  have herrors := map_mergeSort_eq (f := Diagnostic.down aspect.lines) (r := diagnosticLe)
    (diagnosticLe_down aspect.lines) scan.errors
  have hexports := map_mergeSort_eq (f := ExportEntry.under aspect)
    (r := fun x y => x.line ≤ y.line) (by simp [ExportEntry.under])
  have hclasses : (scan.classes.map (ClassDraft.under aspect)).map finishClass =
      (scan.classes.map finishClass).map (ClassEntry.under aspect) := by
    rw [List.map_map, List.map_map]
    exact List.map_congr_left fun draft _ => finishClass_under aspect draft
  have hclassExports : (scan.classes.map (ClassDraft.under aspect)).filterMap exportOfClass? =
      (scan.classes.filterMap exportOfClass?).map (ExportEntry.under aspect) := by
    rw [List.filterMap_map, List.map_filterMap]
    exact congrArg (List.filterMap · _) (funext (exportOfClass?_under aspect))
  have hfunctionExports : ∀ l : List FunctionEntry,
      (l.map (FunctionEntry.under aspect)).filterMap exportOfFunction? =
        (l.filterMap exportOfFunction?).map (ExportEntry.under aspect) := by
    intro l
    rw [List.filterMap_map, List.map_filterMap]
    exact congrArg (List.filterMap · _) (funext (exportOfFunction?_under aspect))
  simp only [finish, Scan.under, Summary.under, ← hfunctions, herrors, hexports, List.map_append,
    hclasses, hclassExports, hfunctionExports]

/-- Under an aspect that only moves, warnings keep their order. -/
theorem finish_under_lowered (lines : Nat) (scan : Scan) (language : String) :
    (scan.under (.lowered lines)).finish language =
      (scan.finish language).under (.lowered lines) := by
  have hwarnings := map_mergeSort_eq (f := Diagnostic.under (.lowered lines)) (r := diagnosticLe)
    (diagnosticLe_down lines) scan.warnings
  rw [finish_under, ← hwarnings]
  rfl

end Scan
end Outline
